import AppendLists.Store.Log.Entry

namespace AppendLists

/-!
# Recovery

Opening a log replays its entries into an empty memory store. A torn tail is cut off: an entry that
the file ends within, or a damaged entry with nothing behind it. A damaged entry with more data
behind it is corruption, and so is an entry that cannot be applied; then the file stays as it is.

* `logMagic`, `logVersion`, `logHeader`: how a log begins;
* `Recovered`: what a replay yields;
* `replayFrom`: the replay of the entries from a place on;
* `recover`: the replay of a file.
-/

/-- The first bytes of every log. -/
def logMagic : Bytes := [0x4B, 0x4C, 0x53, 0x00]

/-- The format version of this library. -/
def logVersion : UInt8 := 1

/-- The log without entries. -/
def logHeader : Bytes := logMagic ++ [logVersion]

/-- What the replay of a log yields. -/
structure Recovered where
  /-- The store with every sound entry applied. -/
  memory : MemoryStore
  /-- The highest sequence number, zero if there is no entry. -/
  maxSeq : Nat
  /-- The number of bytes up to the end of the last sound entry. -/
  validLength : Nat
deriving DecidableEq

/-- Replay the entries in `bs` behind what has been recovered already. -/
def replayFrom (limit : Nat) (bs : Bytes) (r : Recovered) : Except StorageError Recovered :=
  match h : readEntry limit bs with
  | .finished => .ok r
  | .short => .ok r
  | .damaged size cause =>
    -- what is announced decides where the entry ends, even if the announcement is the damage
    if size < bs.length then .error (.damagedEntry r.validLength (bs.length - size) cause)
    else .ok r
  | .entry e size =>
    have : bs.length - size < bs.length := by
      have := size_of_readEntry h
      simp only [entryOverhead] at this
      omega
    match e.mutation.apply r.memory with
    | (.error cause, _) => .error (.replayFailed cause)
    | (.ok (), memory) =>
      replayFrom limit (bs.drop size) ⟨memory, max r.maxSeq e.seq, r.validLength + size⟩
termination_by bs.length

/-- Replay a file. -/
def recover (limit : Nat) (file : Bytes) : Except StorageError Recovered :=
  if file.length < logMagic.length then .error (.device .endOfInput)
  else if file.take logMagic.length ≠ logMagic then .error .invalidMagic
  else
    match file.drop logMagic.length with
    | [] => .error (.device .endOfInput)
    | version :: entries =>
      if version ≠ logVersion then .error (.unsupportedVersion version)
      else replayFrom limit entries ⟨MemoryStore.empty, 0, logHeader.length⟩

end AppendLists
