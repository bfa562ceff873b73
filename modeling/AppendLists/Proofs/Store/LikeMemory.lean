import AppendLists.Proofs.Log.Durable
import AppendLists.Store.Faulty

namespace AppendLists

/-!
# Stores that read, delete and merge like a memory store

What moving a value needs of a store: reading, deleting and merging either come out as they do on a
memory store of the same contents, or fail and leave the contents as they were. Which call fails,
and when, is left open.

* `Call.LikeMemory`: one call;
* `LikeMemory`: the three calls of a store;
* `MemoryStore.get_eq_ok`, `delete_eq_ok`, `merge_eq_ok`, `contents_of_apply_error`: what an outcome
  tells of the contents of a memory store;
* `LikeMemory.get_ok`, `delete_ok`, `merge_ok`, and `get_error`, `delete_error`, `merge_error`: the
  same of a store that is like it;
* `MemoryStore.likeMemory`, `FaultyStore.likeMemory`, `LogStore.likeMemory`: memory stores, memory
  stores that are told to fail, and log stores.
-/

/-- The call comes out as on a memory store of the same contents, or it fails without effect; `see`
is what can be told of a store. -/
def Call.LikeMemory {σ α : Type} (see : σ → Contents) (call : Call σ StorageError α)
    (model : Call MemoryStore StorageError α) : Prop :=
  ∀ s, (∃ m : MemoryStore, m.contents = see s ∧ (model m).1 = (call s).1 ∧
      (model m).2.contents = see (call s).2) ∨
    (∃ e, (call s).1 = .error e) ∧ see (call s).2 = see s

/-- The store reads, deletes and merges like a memory store, or fails without effect. -/
structure LikeMemory {σ : Type} [Store σ] (see : σ → Contents) : Prop where
  /-- Reading. -/
  get : ∀ name key, Call.LikeMemory see (Store.get name key) (MemoryStore.get name key)
  /-- Deleting. -/
  delete : ∀ name key, Call.LikeMemory see (Store.delete name key) (MemoryStore.delete name key)
  /-- Merging. -/
  merge : ∀ name key operand,
    Call.LikeMemory see (Store.merge name key operand) (MemoryStore.merge name key operand)

/-! ### What outcomes tell of a memory store -/

namespace MemoryStore

variable {name : String} {key operand : Bytes} {value : Option Bytes} {m : MemoryStore}

/-- A get of a memory store answers with the value in its contents. -/
theorem get_eq_ok (h : (get name key m).1 = .ok value) : value = m.contents.value name key := by
  cases hp : m.partition name with
  | ok p =>
    rw [get_run hp] at h
    exact (Except.ok.inj h).symm.trans (value?_of_partition hp key).symm
  | error e =>
    simp only [get, Call.query, hp, Except.map] at h
    cases h

/-- A delete that succeeds clears the value. -/
theorem delete_eq_ok (h : (delete name key m).1 = .ok ()) :
    (delete name key m).2.contents = m.contents.setValue name key none := by
  cases hp : m.partition name with
  | ok p => exact delete_contents hp key
  | error e =>
    rw [delete_run_of_error hp] at h
    cases h

/-- A merge that succeeds combines the operand with the value. -/
theorem merge_eq_ok (h : (merge name key operand m).1 = .ok ()) :
    ∃ op, m.contents.operator name = some (some op) ∧
      (merge name key operand m).2.contents = m.contents.setValue name key
        (some (op.fullMerge (m.contents.value name key) [operand])) := by
  cases hp : m.partition name with
  | ok p =>
    cases hop : p.operator with
    | some op =>
      have hsome : m.contents.operator name = some (some op) := by
        simp [contents, (partition_eq_ok_iff.1 hp).2, hop]
      exact ⟨op, hsome, merge_contents hp hop key operand⟩
    | none =>
      rw [merge_run_of_no_operator hp hop] at h
      cases h
  | error e =>
    rw [merge_run_of_error hp] at h
    cases h

/-- A change that fails leaves the contents alone. -/
theorem contents_of_apply_error (change : Mutation) (m : MemoryStore)
    (h : ∃ e, (change.apply m).1 = .error e) : (change.apply m).2.contents = m.contents := by
  have ho := change.outcome m
  generalize change.apply m = r at ho h
  obtain ⟨e, he⟩ := h
  cases ho with
  | created | put | queued | dropped => cases he
  | refused => rfl
  | wasted => rfl

end MemoryStore

/-! ### What outcomes tell of a store that is like it -/

namespace Call.LikeMemory

variable {σ α : Type} {see : σ → Contents} {call : Call σ StorageError α}
  {model : Call MemoryStore StorageError α} (h : Call.LikeMemory see call model) {s s' : σ}
include h

/-- An answer is one that memory gives on the same contents, and it leaves the same contents. -/
theorem of_ok {a : α} (hrun : call s = (.ok a, s')) :
    ∃ m : MemoryStore, m.contents = see s ∧ (model m).1 = .ok a ∧ (model m).2.contents = see s' := by
  rcases h s with ⟨m, hm, hsame, hsee⟩ | ⟨⟨e, he⟩, -⟩
  · rw [hrun] at hsame hsee
    exact ⟨m, hm, hsame, hsee⟩
  · rw [hrun] at he
    cases he

/-- A failure is without effect if it is so on memory stores. -/
theorem of_error (hmodel : ∀ m, (∃ e, (model m).1 = .error e) → (model m).2.contents = m.contents)
    {e : StorageError} (hrun : call s = (.error e, s')) : see s' = see s := by
  rcases h s with ⟨m, hm, hsame, hsee⟩ | ⟨-, hsee⟩
  · rw [hrun] at hsame hsee
    rw [← hsee, hmodel m ⟨e, hsame⟩, hm]
  · rwa [hrun] at hsee

end Call.LikeMemory

namespace LikeMemory

variable {σ : Type} [Store σ] {see : σ → Contents} (hlike : LikeMemory see) {name : String}
  {key operand : Bytes} {value : Option Bytes} {s s' : σ} {e : StorageError}
include hlike

/-- What memory answers is answered. -/
theorem get_ok (h : Store.get name key s = (.ok value, s')) :
    value = (see s).value name key ∧ see s' = see s := by
  obtain ⟨m, hm, hrun, hsee⟩ := (hlike.get name key).of_ok h
  rw [← hm]
  exact ⟨MemoryStore.get_eq_ok hrun, hsee.symm⟩

/-- A get that fails changes no contents. -/
theorem get_error (h : Store.get name key s = (.error e, s')) : see s' = see s :=
  (hlike.get name key).of_error (fun _ _ => rfl) h

/-- A delete that succeeds clears the value. -/
theorem delete_ok (h : Store.delete name key s = (.ok (), s')) :
    see s' = (see s).setValue name key none := by
  obtain ⟨m, hm, hrun, hsee⟩ := (hlike.delete name key).of_ok h
  rw [← hsee, MemoryStore.delete_eq_ok hrun, hm]

/-- A delete that fails changes no contents. -/
theorem delete_error (h : Store.delete name key s = (.error e, s')) : see s' = see s :=
  (hlike.delete name key).of_error
    (MemoryStore.contents_of_apply_error (.delete name key)) h

/-- A merge that succeeds combines the operand with the value. -/
theorem merge_ok (h : Store.merge name key operand s = (.ok (), s')) :
    ∃ op, (see s).operator name = some (some op) ∧ see s' = (see s).setValue name key
      (some (op.fullMerge ((see s).value name key) [operand])) := by
  obtain ⟨m, hm, hrun, hsee⟩ := (hlike.merge name key operand).of_ok h
  rw [← hsee, ← hm]
  exact MemoryStore.merge_eq_ok hrun

/-- A merge that fails changes no contents. -/
theorem merge_error (h : Store.merge name key operand s = (.error e, s')) : see s' = see s :=
  (hlike.merge name key operand).of_error
    (MemoryStore.contents_of_apply_error (.merge name key operand)) h

end LikeMemory

/-! ### Stores of this kind -/

/-- Memory is like itself. -/
theorem MemoryStore.likeMemory : LikeMemory MemoryStore.contents where
  get _ _ s := .inl ⟨s, rfl, rfl, rfl⟩
  delete _ _ s := .inl ⟨s, rfl, rfl, rfl⟩
  merge _ _ _ s := .inl ⟨s, rfl, rfl, rfl⟩

namespace FaultyStore

/-- What can be told of the store behind it. -/
def contents (s : FaultyStore) : Contents := s.inner.contents

/-- A call that may be refused is either made in memory or fails before it. -/
theorem likeMemory_guarded {α : Type} (op : Operation) (call : Call MemoryStore StorageError α) :
    Call.LikeMemory contents (guarded op call) call := by
  intro s
  unfold guarded
  split
  · exact .inl ⟨s.inner, rfl, rfl, rfl⟩
  · exact .inr ⟨⟨_, rfl⟩, rfl⟩
  · exact .inl ⟨s.inner, rfl, rfl, rfl⟩

/-- So is a store whose calls can be refused. -/
theorem likeMemory : LikeMemory contents where
  get _ _ := likeMemory_guarded .get _
  delete _ _ := likeMemory_guarded .delete _
  merge _ _ _ := likeMemory_guarded .merge _

end FaultyStore

namespace LogStore

/-- What can be told of what is held in memory. -/
def contents (s : LogStore) : Contents := s.memory.contents

/-- A change that cannot be logged is not applied. -/
theorem likeMemory_logThenApply (m : Mutation) :
    Call.LikeMemory contents (logThenApply m) m.apply := by
  intro s
  cases hclosed : s.memory.closed with
  | true => exact .inr ⟨⟨.closed, by simp [logThenApply, hclosed]⟩, by simp [logThenApply, hclosed]⟩
  | false =>
    rcases logThenApply_run hclosed m with ⟨e, hrun, -⟩ | ⟨s', -, hrun, -, -, -, happly, -⟩
    · exact .inr ⟨⟨e, by rw [hrun]⟩, by rw [hrun]⟩
    · exact .inl ⟨s.memory, rfl, by rw [hrun, happly], by rw [hrun, happly]; rfl⟩

theorem likeMemory : LikeMemory contents where
  get _ _ s := .inl ⟨s.memory, rfl, rfl, rfl⟩
  delete name key := likeMemory_logThenApply (.delete name key)
  merge name key operand := likeMemory_logThenApply (.merge name key operand)

end LogStore

end AppendLists
