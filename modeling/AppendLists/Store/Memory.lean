import AppendLists.Store.Basic
import AppendLists.Table

namespace AppendLists

/-!
# The memory store

A store that holds everything in memory. Merge operands are kept per key as they arrive and are
combined only when the key is read, without keeping the result, or compacted. Every put and merge
gives its entry a version that no entry had before, which is how the commit of a compaction pass
notices writes since its capture.

* `Entry`, `Partition`, `MemoryStore`: the data;
* `Partition.resolve`: the value of an entry;
* `MemoryStore.create`, `get`, `put`, `delete`, `scan`, `merge`, `dropPartition`, `close`: the
  calls;
* `MemoryStore.capture`, `commitDecision`, `commit`: the two steps of a compaction pass.
-/

/-- What is stored under a key. -/
structure Entry where
  /-- The resolved value, if there is one yet. -/
  base : Option Bytes
  /-- The operands that came after it, oldest first. -/
  operands : List Bytes
  /-- The number of the write that touched it last. As long as there were fewer than `2 ^ 64` writes, a
  counter of 64 bits has the same number. -/
  version : Nat
deriving DecidableEq

/-- A key space of its own. -/
structure Partition where
  /-- How operands are combined, if they are. -/
  operator : Option MergeOperator
  /-- The entries by key. -/
  entries : Table Bytes Entry
deriving DecidableEq

namespace Partition

/-- The value of an entry: its base, with the operands combined into it. -/
def resolve (p : Partition) (e : Entry) : Option Bytes :=
  if e.operands.isEmpty then e.base
  else p.operator.map fun op => op.fullMerge e.base e.operands

/-- The keys that have a value, in order, with their values. -/
def resolved (p : Partition) : List (Bytes × Bytes) :=
  p.entries.pairs.filterMap fun (key, e) => (p.resolve e).map fun value => (key, value)

/-- What a compaction pass starts from. -/
def captured (p : Partition) : List Captured :=
  p.entries.pairs.map fun (key, e) => ⟨key, e.version, e.operands.length, p.resolve e⟩

end Partition

/-- A store in memory. -/
structure MemoryStore where
  /-- The partitions by name. -/
  partitions : Table String Partition
  /-- The version of the next write. Every put and every merge takes one; a counter of 64 bits agrees
  with it for fewer than `2 ^ 64` of them. -/
  nextVersion : Nat
  /-- Whether the store refuses calls. -/
  closed : Bool
deriving DecidableEq

namespace MemoryStore

/-- A store without partitions. -/
def empty : MemoryStore := ⟨Table.empty, 1, false⟩

/-- Refuse all further calls. -/
def close (s : MemoryStore) : MemoryStore := { s with closed := true }

/-- The number of unresolved operands of a key. -/
def pending (s : MemoryStore) (name : String) (key : Bytes) : Nat :=
  match (s.partitions.find? name).bind (·.entries.find? key) with
  | some e => e.operands.length
  | none => 0

/-- The names of the partitions, in order. -/
def partitionNames (s : MemoryStore) : List String := s.partitions.keys

/-- The way of merging of a partition. -/
def operator? (s : MemoryStore) (name : String) : Option MergeOperator :=
  (s.partitions.find? name).bind (·.operator)

/-- Whether a partition exists; closed stores tell it too. -/
def has (s : MemoryStore) (name : String) : Bool := s.partitions.contains name

/-- The partition of a name in an open store. -/
def partition (name : String) (s : MemoryStore) : Except StorageError Partition :=
  if s.closed then .error .closed
  else
    match s.partitions.find? name with
    | some p => .ok p
    | none => .error (.partitionNotFound name)

/-- Change the partition of a name in an open store. -/
def modify (name : String) (f : Partition → Except StorageError Partition) :
    Call MemoryStore StorageError Unit := fun s =>
  match (s.partition name).bind f with
  | .ok p => (.ok (), { s with partitions := s.partitions.insert name p })
  | .error e => (.error e, s)

/-- Hand out a version and make a change with it; the version is used up even if the change is
refused. -/
def versioned (change : Nat → Call MemoryStore StorageError Unit) :
    Call MemoryStore StorageError Unit := fun s =>
  change s.nextVersion { s with nextVersion := s.nextVersion + 1 }

/-! ### The plain calls -/

/-- Create a partition. -/
def create (name : String) (op : Option MergeOperator) : Call MemoryStore StorageError Unit :=
  fun s =>
    if s.closed then (.error .closed, s)
    else if s.has name then (.error (.partitionExists name), s)
    else (.ok (), { s with partitions := s.partitions.insert name ⟨op, Table.empty⟩ })

/-- Remove a partition with everything in it. -/
def dropPartition (name : String) : Call MemoryStore StorageError Unit := fun s =>
  match s.partition name with
  | .ok _ => (.ok (), { s with partitions := s.partitions.erase name })
  | .error e => (.error e, s)

/-- The resolved value of a key. -/
def get (name : String) (key : Bytes) : Call MemoryStore StorageError (Option Bytes) :=
  Call.query fun s => (s.partition name).map fun p => (p.entries.find? key).bind p.resolve

/-- Set the value of a key. -/
def put (name : String) (key value : Bytes) : Call MemoryStore StorageError Unit :=
  versioned fun version => modify name fun p =>
    .ok { p with entries := p.entries.insert key ⟨some value, [], version⟩ }

/-- Remove a key. -/
def delete (name : String) (key : Bytes) : Call MemoryStore StorageError Unit :=
  modify name fun p => .ok { p with entries := p.entries.erase key }

/-- The keys in order with their resolved values. -/
def scan (name : String) : Call MemoryStore StorageError (List (Bytes × Bytes)) :=
  Call.query fun s => (s.partition name).map Partition.resolved

/-- Queue an operand for a key. -/
def merge (name : String) (key operand : Bytes) : Call MemoryStore StorageError Unit :=
  versioned fun version => modify name fun p =>
    match p.operator with
    | none => .error (.mergeNotSupported name)
    | some _ =>
      let e := (p.entries.find? key).getD ⟨none, [], 0⟩
      .ok { p with
        entries := p.entries.insert key ⟨e.base, e.operands ++ [operand], version⟩ }

/-! ### The steps of a compaction pass -/

/-- Take the versions and values that a pass starts from. -/
def capture (name : String) : Call MemoryStore StateError (List Captured) :=
  Call.attempting .accessingStore
    (Call.query fun s => (s.partition name).map Partition.captured)

/-- Carry out one decision, unless its key was written since the capture. -/
def commitDecision (d : Decision) (p : Partition) (stats : CompactionStats) :
    Partition × CompactionStats :=
  match p.entries.find? d.captured.key with
  | none => (p, { stats with skipped := stats.skipped + 1 })
  | some e =>
    -- a version is handed out once, so an equal one means that nobody wrote in between
    if e.version ≠ d.captured.version then (p, { stats with skipped := stats.skipped + 1 })
    else
      match d.outcome with
      | none =>
        ({ p with entries := p.entries.erase d.captured.key },
          { stats with
            removed := stats.removed + 1
            folded := stats.folded + d.captured.pending })
      | some value =>
        ({ p with entries := p.entries.insert d.captured.key ⟨some value, [], e.version⟩ },
          { stats with
            rewritten := stats.rewritten + if d.outcome = d.captured.value then 0 else 1
            folded := stats.folded + d.captured.pending })

/-- Carry out decisions in turn. -/
def commitDecisions : List Decision → Partition → CompactionStats → Partition × CompactionStats
  | [], p, stats => (p, stats)
  | d :: ds, p, stats =>
    let (p, stats) := commitDecision d p stats
    commitDecisions ds p stats

/-- Carry out what a pass decided. -/
def commit (name : String) (decisions : List Decision) :
    Call MemoryStore StateError CompactionStats := fun s =>
  match s.partition name with
  | .error e => (.error (.access .accessingStore e), s)
  | .ok p =>
    let (p, stats) := commitDecisions decisions p (.visited decisions.length)
    (.ok stats, { s with partitions := s.partitions.insert name p })

instance : Store MemoryStore where
  create := create
  has := has
  get := get
  put := put
  delete := delete
  scan := scan
  merge := merge
  capture := capture
  commit := commit

end MemoryStore

end AppendLists
