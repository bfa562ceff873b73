import AppendLists.Proofs.Memory.Contents
import AppendLists.Store.Log.Entry

namespace AppendLists

/-!
# The invariant of memory stores

What holds in every state that a memory store can get into, whatever was called and however
compaction passes and other calls overlapped.

* `Entry.Sound`, `Partition.Sound`, `MemoryStore.Sound`: every entry holds something, holds
  operands only where they can be combined, and has a version that was handed out already;
* `Mutation.Outcome`, `Mutation.outcome`: all that a change can do to a store;
* `MemoryStore.Sound.apply`: a change keeps the invariant.
-/

/-! ### The invariant -/

/-- What holds of an entry of a partition that merges by `op`, while `next` is the next version. -/
structure Entry.Sound (op : Option MergeOperator) (next : Nat) (e : Entry) : Prop where
  /-- It holds a value or operands. -/
  live : e.base = none → e.operands ≠ []
  /-- It holds operands only if they can be combined. -/
  merged : op = none → e.operands = []
  /-- Its version was handed out. -/
  stamped : e.version < next

/-- What holds of a partition. -/
def Partition.Sound (next : Nat) (p : Partition) : Prop :=
  ∀ key e, p.entries.find? key = some e → e.Sound p.operator next

/-- What holds of a store. -/
def MemoryStore.Sound (s : MemoryStore) : Prop :=
  ∀ name p, s.partitions.find? name = some p → p.Sound s.nextVersion

/-- Versions below the next one stay below it when it grows. -/
theorem Entry.Sound.mono {op : Option MergeOperator} {next next' : Nat} {e : Entry}
    (h : e.Sound op next) (hle : next ≤ next') : e.Sound op next' :=
  ⟨h.live, h.merged, Nat.lt_of_lt_of_le h.stamped hle⟩

namespace Partition.Sound

variable {next next' : Nat} {p : Partition}

theorem mono (h : p.Sound next) (hle : next ≤ next') : p.Sound next' :=
  fun key e he => (h key e he).mono hle

/-- A partition without entries satisfies it. -/
theorem empty (op : Option MergeOperator) (next : Nat) :
    (Partition.mk op Table.empty).Sound next := by
  intro key e he
  simp at he

/-- An entry of a sound partition has a value. -/
theorem resolve_isSome (h : p.Sound next) {key : Bytes} {e : Entry}
    (he : p.entries.find? key = some e) : (p.resolve e).isSome := by
  have hs := h key e he
  unfold resolve
  by_cases hnil : e.operands = []
  · rw [if_pos (by simp [hnil])]
    cases hb : e.base with
    | none => exact absurd hnil (hs.live hb)
    | some value => rfl
  · rw [if_neg (by simp [hnil])]
    cases hop : p.operator with
    | none => exact absurd (hs.merged hop) hnil
    | some op => rfl

/-- In a sound partition the keys with a value are those with an entry. -/
theorem value?_isSome (h : p.Sound next) (key : Bytes) :
    (p.value? key).isSome = (p.entries.find? key).isSome := by
  unfold value?
  cases he : p.entries.find? key with
  | none => rfl
  | some e => simpa using h.resolve_isSome he

/-- A put gives its key the next version and no operands. -/
theorem put (h : p.Sound next) (key value : Bytes) : (p.put key value next).Sound (next + 1) := by
  intro key' e he
  simp only [Partition.put, Table.find?_insert] at he
  split at he
  · obtain rfl := Option.some.inj he
    exact ⟨by simp, fun _ => rfl, Nat.lt_succ_self next⟩
  · exact (h key' e he).mono (Nat.le_succ next)

/-- A removal leaves the other entries. -/
theorem drop (h : p.Sound next) (key : Bytes) : (p.drop key).Sound next := by
  intro key' e he
  simp only [Partition.drop, Table.find?_erase] at he
  split at he
  · cases he
  · exact h key' e he

/-- An operand is queued only where there is a way of combining it. -/
theorem queue (h : p.Sound next) {op : MergeOperator} (hop : p.operator = some op)
    (key operand : Bytes) : (p.queue key operand next).Sound (next + 1) := by
  intro key' e he
  simp only [Partition.queue, Table.find?_insert] at he
  split at he
  · obtain rfl := Option.some.inj he
    refine ⟨by simp, ?_, Nat.lt_succ_self next⟩
    intro hnone
    rw [Partition.operator_queue, hop] at hnone
    cases hnone
  · exact (h key' e he).mono (Nat.le_succ next)

end Partition.Sound

namespace MemoryStore.Sound

variable {s : MemoryStore} {name : String} {p : Partition}

/-- A store without partitions satisfies it. -/
theorem empty : MemoryStore.empty.Sound := by
  intro name p hp
  simp [MemoryStore.empty] at hp

/-- Every partition of a sound store is sound. -/
theorem of_partition (h : s.Sound) (hp : s.partition name = .ok p) : p.Sound s.nextVersion :=
  h name p (partition_eq_ok_iff.1 hp).2

/-- A sound store stays so when one partition is replaced by a sound one. -/
theorem setPartition (h : s.Sound) (hp : p.Sound s.nextVersion) :
    (s.setPartition name p).Sound := by
  intro name' p' hp'
  rw [find?_setPartition] at hp'
  split at hp'
  · obtain rfl := Option.some.inj hp'
    exact hp
  · exact h name' p' hp'

/-- Taking a version keeps the others below the next one. -/
theorem bumped (h : s.Sound) : s.bumped.Sound :=
  fun name p hp => (h name p hp).mono (Nat.le_succ _)

/-- Closing changes no entries. -/
theorem close (h : s.Sound) : s.close.Sound := h

end MemoryStore.Sound

/-! ### All that a change can do -/

/-- All that a change can do to a store. -/
inductive Mutation.Outcome (s : MemoryStore) :
    Mutation → Except StorageError Unit × MemoryStore → Prop where
  /-- A new partition. -/
  | created {name : String} (op : Option MergeOperator) (hc : s.closed = false)
      (hname : s.partitions.find? name = none) :
      Outcome s (.create name op) (.ok (), s.setPartition name ⟨op, Table.empty⟩)
  /-- A value in place of an entry. -/
  | put {name : String} {p : Partition} (key value : Bytes) (hp : s.partition name = .ok p) :
      Outcome s (.put name key value)
        (.ok (), s.bumped.setPartition name (p.put key value s.nextVersion))
  /-- An operand behind the others. -/
  | queued {name : String} {p : Partition} {op : MergeOperator} (key operand : Bytes)
      (hp : s.partition name = .ok p) (hop : p.operator = some op) :
      Outcome s (.merge name key operand)
        (.ok (), s.bumped.setPartition name (p.queue key operand s.nextVersion))
  /-- An entry less. -/
  | dropped {name : String} {p : Partition} (key : Bytes) (hp : s.partition name = .ok p) :
      Outcome s (.delete name key) (.ok (), s.setPartition name (p.drop key))
  /-- Nothing. -/
  | refused (m : Mutation) (e : StorageError) : Outcome s m (.error e, s)
  /-- Nothing but a version that is used up. -/
  | wasted (m : Mutation) (e : StorageError) : Outcome s m (.error e, s.bumped)

/-- Every change of a memory store is one of these, and which one depends on the partition. -/
theorem Mutation.outcome (m : Mutation) (s : MemoryStore) : m.Outcome s (m.apply s) := by
  cases m with
  | create name op =>
    show Outcome s _ (MemoryStore.create name op s)
    cases hc : s.closed with
    | true =>
      rw [show MemoryStore.create name op s = (.error .closed, s) by simp [MemoryStore.create, hc]]
      exact .refused ..
    | false =>
      cases hname : s.partitions.find? name with
      | none =>
        rw [MemoryStore.create_run hc hname]
        exact .created op hc hname
      | some p =>
        rw [show MemoryStore.create name op s = (.error (.partitionExists name), s) by
          simp [MemoryStore.create, hc, MemoryStore.has, Table.contains, hname]]
        exact .refused ..
  | put name key value =>
    show Outcome s _ (MemoryStore.put name key value s)
    cases hp : s.partition name with
    | ok p =>
      rw [MemoryStore.put_run hp]
      exact .put key value hp
    | error e =>
      -- the version is handed out before the partition is looked for
      rw [MemoryStore.put_run_of_error hp]
      exact .wasted ..
  | merge name key operand =>
    show Outcome s _ (MemoryStore.merge name key operand s)
    cases hp : s.partition name with
    | ok p =>
      cases hop : p.operator with
      | some op =>
        rw [MemoryStore.merge_run hp hop]
        exact .queued key operand hp hop
      | none =>
        rw [MemoryStore.merge_run_of_no_operator hp hop]
        exact .wasted ..
    | error e =>
      rw [MemoryStore.merge_run_of_error hp]
      exact .wasted ..
  | delete name key =>
    show Outcome s _ (MemoryStore.delete name key s)
    cases hp : s.partition name with
    | ok p =>
      rw [MemoryStore.delete_run hp]
      exact .dropped key hp
    | error e =>
      rw [MemoryStore.delete_run_of_error hp]
      exact .refused ..

/-- A change keeps the invariant. -/
theorem MemoryStore.Sound.apply {s : MemoryStore} (h : s.Sound) (m : Mutation) :
    (m.apply s).2.Sound := by
  have ho := m.outcome s
  generalize m.apply s = r at ho
  cases ho with
  | created op hc hname => exact h.setPartition (Partition.Sound.empty op _)
  | put key value hp => exact h.bumped.setPartition ((h.of_partition hp).put key value)
  | queued key operand hp hop =>
    exact h.bumped.setPartition ((h.of_partition hp).queue hop key operand)
  | dropped key hp => exact h.setPartition ((h.of_partition hp).drop key)
  | refused e => exact h
  | wasted e => exact h.bumped

end AppendLists
