import AppendLists.Store.Memory

namespace AppendLists

/-!
# A store that fails on demand

A memory store whose calls can be told to fail after some more of them have gone through, as on a
full disk. A call that fails this way changes nothing.

* `FaultyStore.Operation`: the calls that can fail;
* `FaultyStore.failAfter`, `FaultyStore.recover`: switch failing on and off;
* `FaultyStore.guarded`: a call of the memory store that counts down.
-/

/-- A memory store with a countdown for each operation that is to fail. -/
structure FaultyStore where
  /-- The store behind it. -/
  inner : MemoryStore
  /-- The operations that are to fail, each with the number of calls that still succeed. -/
  countdowns : Table String Nat

namespace FaultyStore

/-- The operations that can be told to fail. -/
inductive Operation where
  /-- Reading a key. -/
  | get
  /-- Setting a key. -/
  | put
  /-- Removing a key. -/
  | delete
  /-- Queueing an operand. -/
  | merge
  /-- Listing a partition. -/
  | scan
  /-- Creating a partition. -/
  | create
deriving DecidableEq

/-- The name of an operation. -/
def Operation.name : Operation → String
  | .get => "get"
  | .put => "put"
  | .delete => "delete"
  | .merge => "merge"
  | .scan => "scan"
  | .create => "create"

/-- The operations. -/
def Operation.all : List Operation := [.get, .put, .delete, .merge, .scan, .create]

/-- A store that does not fail yet. -/
def reliable (inner : MemoryStore) : FaultyStore := ⟨inner, Table.empty⟩

/-- Let `n` more calls of an operation succeed and then fail. -/
def failAfter (op : Operation) (n : Nat) (s : FaultyStore) : FaultyStore :=
  { s with countdowns := s.countdowns.insert op.name n }

/-- Let an operation succeed again. -/
def recover (op : Operation) (s : FaultyStore) : FaultyStore :=
  { s with countdowns := s.countdowns.erase op.name }

variable {ε α : Type}

/-- A call of the memory store. -/
def onInner (call : Call MemoryStore ε α) : Call FaultyStore ε α := fun s =>
  let (r, inner) := call s.inner
  (r, { s with inner })

/-- A call of the memory store that fails when its countdown is over. -/
def guarded (op : Operation) (call : Call MemoryStore StorageError α) :
    Call FaultyStore StorageError α := fun s =>
  match s.countdowns.find? op.name with
  | none => onInner call s
  | some 0 => (.error (.device .diskFull), s)
  | some (n + 1) => onInner call (s.failAfter op n)

instance : Store FaultyStore where
  create name op := guarded .create (MemoryStore.create name op)
  has s name := s.inner.has name
  get name key := guarded .get (MemoryStore.get name key)
  put name key value := guarded .put (MemoryStore.put name key value)
  delete name key := guarded .delete (MemoryStore.delete name key)
  scan name := guarded .scan (MemoryStore.scan name)
  merge name key operand := guarded .merge (MemoryStore.merge name key operand)
  capture := captureByScan fun name => guarded .scan (MemoryStore.scan name)
  commit name decisions :=
    commitByWrites (fun key value => guarded .put (MemoryStore.put name key value))
      (fun key => guarded .delete (MemoryStore.delete name key)) decisions
      (.visited decisions.length)

end FaultyStore

end AppendLists
