import AppendLists.Store.Faulty
import AppendLists.Store.Log.Basic
import AppendLists.Store.MergeOnRead

namespace AppendLists

/-!
# Engines

A store whose implementation is chosen at run time.

* `Engine`: one of the stores;
* `Engine.memory`, `Engine.mapMemory`: the memory store inside it.
-/

/-- A store of one of the kinds. -/
inductive Engine where
  /-- A memory store. -/
  | plain (s : MemoryStore)
  /-- A memory store that merges by reading. -/
  | mergeOnRead (s : MergeOnRead MemoryStore)
  /-- A log store. -/
  | log (s : LogStore)
  /-- A memory store that fails on demand. -/
  | faulty (s : FaultyStore)

namespace Engine

variable {ε α : Type}

/-- A call that every kind of store answers in its own way. -/
def dispatch (plain : Call MemoryStore ε α) (mergeOnRead : Call (MergeOnRead MemoryStore) ε α)
    (log : Call LogStore ε α) (faulty : Call FaultyStore ε α) : Call Engine ε α
  | .plain s => let (r, s) := plain s; (r, .plain s)
  | .mergeOnRead s => let (r, s) := mergeOnRead s; (r, .mergeOnRead s)
  | .log s => let (r, s) := log s; (r, .log s)
  | .faulty s => let (r, s) := faulty s; (r, .faulty s)

instance : Store Engine where
  create name op :=
    dispatch (Store.create name op) (Store.create name op) (Store.create name op)
      (Store.create name op)
  has
    | .plain s, name => Store.has s name
    | .mergeOnRead s, name => Store.has s name
    | .log s, name => Store.has s name
    | .faulty s, name => Store.has s name
  get name key :=
    dispatch (Store.get name key) (Store.get name key) (Store.get name key) (Store.get name key)
  put name key value :=
    dispatch (Store.put name key value) (Store.put name key value) (Store.put name key value)
      (Store.put name key value)
  delete name key :=
    dispatch (Store.delete name key) (Store.delete name key) (Store.delete name key)
      (Store.delete name key)
  scan name := dispatch (Store.scan name) (Store.scan name) (Store.scan name) (Store.scan name)
  merge name key operand :=
    dispatch (Store.merge name key operand) (Store.merge name key operand)
      (Store.merge name key operand) (Store.merge name key operand)
  capture name :=
    dispatch (Store.capture name) (Store.capture name) (Store.capture name) (Store.capture name)
  commit name decisions :=
    dispatch (Store.commit name decisions) (Store.commit name decisions)
      (Store.commit name decisions) (Store.commit name decisions)

/-- The memory store inside. -/
def memory : Engine → MemoryStore
  | .plain s => s
  | .mergeOnRead s => s.inner
  | .log s => s.memory
  | .faulty s => s.inner

/-- A call on the memory store inside, past whatever is around it. -/
def onMemory (call : Call MemoryStore ε α) : Call Engine ε α :=
  dispatch call (MergeOnRead.onInner call) (LogStore.onMemory call) (FaultyStore.onInner call)

end Engine

end AppendLists
