import AppendLists.Config
import AppendLists.Store.Log.Recovery

namespace AppendLists

/-!
# The log store

A memory store made durable: every change is written to a log before it is applied, and opening
the store replays the log. Writes collect in a buffer and reach the disk together, every so many
changes or on demand. A checkpoint replaces the log by one entry per partition and live key.

* `Volume`: the directory of a store;
* `LogStore`: an open store;
* `LogStore.openVolume`, `LogStore.shut`: from a directory to a store and back;
* `LogStore.flush`, `LogStore.sync`, `LogStore.append`: writing;
* `LogStore.logThenApply`: the way every change takes;
* `LogStore.checkpoint`: the shorter log.
-/

/-- The directory of a store: its files, and whether an open store holds it. -/
structure Volume where
  /-- The content of the log, if there is one. -/
  log : Option Bytes
  /-- Whether the lock file is there. -/
  lockFile : Bool
  /-- Whether an unfinished checkpoint is there. -/
  scratch : Bool
  /-- Whether an open store holds the lock. -/
  held : Bool
deriving DecidableEq

namespace Volume

/-- A directory without files. -/
def empty : Volume := ⟨none, false, false, false⟩

/-- The names of the files, in order. -/
def files (v : Volume) : List String :=
  (if v.lockFile then ["LOCK"] else [])
    ++ (if v.log.isSome then ["state.log"] else [])
    ++ (if v.scratch then ["state.log.tmp"] else [])

end Volume

/-- An open store over a log. -/
structure LogStore where
  /-- Its settings. -/
  config : StoreConfig
  /-- Its contents. -/
  memory : MemoryStore
  /-- The log as it is on disk. -/
  written : Bytes
  /-- What was logged since the log was last flushed. -/
  buffered : Bytes
  /-- How many bytes on disk are known to survive a crash. -/
  synced : Nat
  /-- The sequence number of the next change. As long as the log has fewer than `2 ^ 64` entries, a
  counter of 64 bits has the same number. -/
  nextSeq : Nat
  /-- The number of changes since the last synchronization. -/
  unsynced : Nat
  /-- Whether an unfinished checkpoint is in the directory. -/
  scratch : Bool
deriving DecidableEq

namespace LogStore

/-! ### Opening and shutting -/

/-- The directory as it is while the store is open. -/
def volume (s : LogStore) : Volume := ⟨some s.written, true, s.scratch, true⟩

/-- A store whose log is `file`. -/
def onFile (config : StoreConfig) (file : Bytes) (memory : MemoryStore) (maxSeq : Nat)
    (scratch : Bool) : LogStore :=
  ⟨config, memory, file, [], file.length, maxSeq + 1, 0, scratch⟩

/-- Open the store in a directory that exists: take the lock, then replay the log, or start one. -/
def openExisting (config : StoreConfig) (v : Volume) : Except StorageError LogStore × Volume :=
  -- the lock file is created before the lock is tried, and stays
  let v := { v with lockFile := true }
  if v.held then (.error .locked, v)
  else
    match v.log with
    | none =>
      let s := onFile config logHeader MemoryStore.empty 0 v.scratch
      (.ok s, s.volume)
    | some file =>
      match recover config.maxEntrySize file with
      | .error e => (.error e, v)
      | .ok r =>
        let s := onFile config (file.take r.validLength) r.memory r.maxSeq v.scratch
        (.ok s, s.volume)

/-- Open the store in a directory that may be missing; the second part is the directory
afterwards. -/
def openVolume (config : StoreConfig) (directory : Option Volume) :
    Except StorageError LogStore × Option Volume :=
  match config.validate with
  | .error e => (.error e, directory)
  | .ok () =>
    match directory with
    | some v =>
      let (r, v) := openExisting config v
      (r, some v)
    | none =>
      if config.createIfMissing then
        let (r, v) := openExisting config .empty
        (r, some v)
      else (.error .notInitialized, none)

/-! ### Writing -/

/-- Hand the buffer to the disk. -/
def flush (s : LogStore) : LogStore := { s with written := s.written ++ s.buffered, buffered := [] }

/-- Make everything logged survive a crash. -/
def sync (s : LogStore) : LogStore :=
  let s := s.flush
  { s with synced := s.written.length, unsynced := 0 }

/-- Leave the directory behind, everything logged included. -/
def shut (s : LogStore) : Volume := { s.sync.volume with held := false }

/-- Log a change, and synchronize if it is time to. -/
def append (m : Mutation) (s : LogStore) : Except StorageError LogStore :=
  match LogEntry.frame s.config.maxEntrySize ⟨s.nextSeq, m⟩ with
  | .error e => .error e
  | .ok bs =>
    let s := { s with
      buffered := s.buffered ++ bs
      nextSeq := s.nextSeq + 1
      unsynced := s.unsynced + 1 }
    .ok (if s.config.syncInterval = 0 ∨ s.config.syncInterval ≤ s.unsynced then s.sync else s)

/-- Why a memory store would refuse a change, other than being closed. -/
def refusal (memory : MemoryStore) : Mutation → Except StorageError Unit
  | .create name _ => if memory.has name then .error (.partitionExists name) else .ok ()
  | .put name _ _ | .delete name _ =>
    if memory.has name then .ok () else .error (.partitionNotFound name)
  | .merge name _ _ =>
    if memory.has name then
      if (memory.operator? name).isSome then .ok () else .error (.mergeNotSupported name)
    else .error (.partitionNotFound name)

/-- A call on the contents alone. -/
def onMemory {ε α : Type} (call : Call MemoryStore ε α) : Call LogStore ε α := fun s =>
  let (r, memory) := call s.memory
  (r, { s with memory })

/-- Log a change and then apply it. What would be refused is refused before it is logged. -/
def logThenApply (m : Mutation) : Call LogStore StorageError Unit := fun s =>
  if s.memory.closed then (.error .closed, s)
  else
    match refusal s.memory m with
    | .error e => (.error e, s)
    | .ok () =>
      match s.append m with
      | .error e => (.error e, s)
      | .ok s => onMemory m.apply s

/-! ### Checkpoints -/

/-- Frame the values of a partition, numbered behind `seq`: the bytes, and the last number. -/
def frameValues (limit : Nat) (name : String) :
    List (Bytes × Bytes) → Nat → Except StorageError (Bytes × Nat)
  | [], seq => .ok ([], seq)
  | (key, value) :: entries, seq => do
    let bs ← LogEntry.frame limit ⟨seq + 1, .put name key value⟩
    let (rest, last) ← frameValues limit name entries (seq + 1)
    return (bs ++ rest, last)

/-- Frame partitions with their values, numbered behind `seq`: the bytes, and the last number. -/
def framePartitions (limit : Nat) (memory : MemoryStore) :
    List String → Nat → Except StorageError (Bytes × Nat)
  | [], seq => .ok ([], seq)
  | name :: names, seq => do
    let bs ← LogEntry.frame limit ⟨seq + 1, .create name (memory.operator? name)⟩
    let p ← memory.partition name
    let (values, seq) ← frameValues limit name p.resolved (seq + 1)
    let (rest, last) ← framePartitions limit memory names seq
    return (bs ++ values ++ rest, last)

/-- Replace the log by one entry per partition and live key. If that fails, the log stays and the
unfinished one is left beside it. -/
def checkpoint : Call LogStore StorageError Unit := fun s =>
  let s := s.flush
  match framePartitions s.config.maxEntrySize s.memory s.memory.partitionNames 0 with
  | .error e => (.error e, { s with scratch := true })
  | .ok (bs, last) =>
    let file := logHeader ++ bs
    (.ok (), { s with
      written := file
      synced := file.length
      nextSeq := last + 1
      unsynced := 0
      scratch := false })

/-- Carry out what a pass decided, then write a checkpoint if that changed what a replay would
yield. -/
def commit (name : String) (decisions : List Decision) :
    Call LogStore StateError CompactionStats := do
  let stats ← onMemory (MemoryStore.commit name decisions)
  -- without any of these the log already replays to what memory holds
  if stats.removed + stats.rewritten + stats.folded > 0 then
    checkpoint.attempting .accessingStore
  return stats

instance : Store LogStore where
  create name op := logThenApply (.create name op)
  has s name := s.memory.has name
  get name key := onMemory (MemoryStore.get name key)
  put name key value := logThenApply (.put name key value)
  delete name key := logThenApply (.delete name key)
  scan name := onMemory (MemoryStore.scan name)
  merge name key operand := logThenApply (.merge name key operand)
  capture name := onMemory (MemoryStore.capture name)
  commit := commit

end LogStore

end AppendLists
