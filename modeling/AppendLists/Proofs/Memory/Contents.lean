import AppendLists.Proofs.Table
import AppendLists.Store.Memory

namespace AppendLists

/-!
# What a memory store holds

Callers cannot see whether a value is stored or still has to be combined from its operands, nor
which version an entry has. What they can see is collected here, together with what each call
makes of it.

* `Partition.value?`, `MemoryStore.value?`: the value of a key;
* `Partition.put`, `Partition.queue`, `Partition.drop`: the three ways to change an entry;
* `Contents`, `MemoryStore.contents`: the ways of merging and the values;
* `get_congr`, `scan_congr`, `partitionNames_congr`, `operator?_congr`: open stores of equal
  contents answer alike;
* `contents_setPartition_eq`, `contents_setPartition_eq_iff`: what another partition makes of the
  contents, and when it makes no difference;
* `create_contents`, `put_contents`, `merge_contents`, `delete_contents`: the change each call
  makes to the contents.
-/

/-! ### Values in a partition -/

namespace Partition

/-- The value of a key. -/
def value? (p : Partition) (key : Bytes) : Option Bytes := (p.entries.find? key).bind p.resolve

/-- Store a value under a key, in place of its entry. -/
def put (key value : Bytes) (version : Nat) (p : Partition) : Partition :=
  { p with entries := p.entries.insert key ⟨some value, [], version⟩ }

/-- Queue an operand behind those of a key. -/
def queue (key operand : Bytes) (version : Nat) (p : Partition) : Partition :=
  let e := (p.entries.find? key).getD ⟨none, [], 0⟩
  { p with entries := p.entries.insert key ⟨e.base, e.operands ++ [operand], version⟩ }

/-- Remove the entry of a key. -/
def drop (key : Bytes) (p : Partition) : Partition := { p with entries := p.entries.erase key }

/-- A put leaves the way of merging as it is. -/
@[simp] theorem operator_put (key value : Bytes) (version : Nat) (p : Partition) :
    (p.put key value version).operator = p.operator := rfl

/-- So does an operand that is queued. -/
@[simp] theorem operator_queue (key operand : Bytes) (version : Nat) (p : Partition) :
    (p.queue key operand version).operator = p.operator := rfl

/-- So does a removal. -/
@[simp] theorem operator_drop (key : Bytes) (p : Partition) :
    (p.drop key).operator = p.operator := rfl

/-- A new partition holds no values. -/
@[simp] theorem value?_empty (op : Option MergeOperator) (key : Bytes) :
    (Partition.mk op Table.empty).value? key = none := rfl

/-- A put changes the value of its key and no other. -/
@[simp] theorem value?_put (key key' value : Bytes) (version : Nat) (p : Partition) :
    (p.put key value version).value? key' = if key' = key then some value else p.value? key' := by
  unfold value? put
  rw [Table.find?_insert]
  by_cases h : key' = key
  · simp [h, resolve]
  · simp only [if_neg h]
    rfl

/-- A removal takes the value of its key and no other. -/
@[simp] theorem value?_drop (key key' : Bytes) (p : Partition) :
    (p.drop key).value? key' = if key' = key then none else p.value? key' := by
  unfold value? drop
  rw [Table.find?_erase]
  by_cases h : key' = key
  · simp [h]
  · simp only [if_neg h]
    rfl

/-- A queued operand is combined with the value that is there, however many operands that value
still has to be combined from. -/
theorem value?_queue {p : Partition} {op : MergeOperator} (hop : p.operator = some op)
    (key key' operand : Bytes) (version : Nat) :
    (p.queue key operand version).value? key'
      = if key' = key then some (op.fullMerge (p.value? key) [operand]) else p.value? key' := by
  unfold value? queue
  rw [Table.find?_insert]
  by_cases h : key' = key
  · simp only [if_pos h]
    cases he : p.entries.find? key with
    | none => simp [resolve, hop]
    | some e =>
      by_cases hnil : e.operands = []
      · simp [resolve, hop, hnil]
      · -- operands that wait already are combined first
        have hbatch : e.base.toList ++ e.operands ≠ [] := by simp [hnil]
        simp [resolve, hop, hnil, op.fullMerge_append e.base hbatch]
  · simp only [if_neg h]
    rfl

/-! ### Listing a partition -/

/-- The keys with a value are the entries that resolve to one. -/
theorem resolved_eq (p : Partition) : p.resolved = (p.entries.filterMap p.resolve).pairs := rfl

/-- They are the keys of which there is a value, with it. -/
theorem mem_resolved_iff {p : Partition} {key value : Bytes} :
    (key, value) ∈ p.resolved ↔ p.value? key = some value := by
  rw [resolved_eq, Table.mem_pairs_iff, Table.find?_filterMap, value?]

/-- What a partition lists is determined by its values. -/
theorem resolved_congr {p q : Partition} (h : ∀ key, p.value? key = q.value? key) :
    p.resolved = q.resolved := by
  have htable : p.entries.filterMap p.resolve = q.entries.filterMap q.resolve := by
    apply Table.ext_find?
    intro key
    simpa [value?] using h key
  rw [resolved_eq, resolved_eq, htable]

end Partition

/-! ### The contents of a store -/

/-- What calls on a store can tell of it. -/
@[ext] structure Contents where
  /-- The way of merging of each partition; `none` where there is no partition. -/
  operator : String → Option (Option MergeOperator)
  /-- The value of each key of each partition. -/
  value : String → Bytes → Option Bytes

namespace Contents

/-- The contents with another value, or none, for one key. -/
def setValue (c : Contents) (name : String) (key : Bytes) (value : Option Bytes) : Contents where
  operator := c.operator
  value name' key' := if name' = name ∧ key' = key then value else c.value name' key'

/-- The contents with one more partition, without values. -/
def addPartition (c : Contents) (name : String) (op : Option MergeOperator) : Contents where
  operator name' := if name' = name then some op else c.operator name'
  value := c.value

variable {c : Contents} {name : String} {key : Bytes}

/-- One value is set, the others stay. -/
theorem value_setValue (c : Contents) (name name' : String) (key key' : Bytes)
    (value : Option Bytes) :
    (c.setValue name key value).value name' key'
      = if name' = name ∧ key' = key then value else c.value name' key' := rfl

theorem value_setValue_self (value : Option Bytes) :
    (c.setValue name key value).value name key = value := if_pos ⟨rfl, rfl⟩

theorem value_setValue_of_ne {key' : Bytes} (h : key' ≠ key) (value : Option Bytes) :
    (c.setValue name key value).value name key' = c.value name key' := if_neg fun heq => h heq.2

/-- A value set to what it is already. -/
theorem setValue_self {value : Option Bytes} (h : c.value name key = value) :
    c.setValue name key value = c := by
  apply Contents.ext
  · rfl
  · funext name' key'
    rw [value_setValue]
    split
    · case isTrue heq => rw [heq.1, heq.2, h]
    · rfl

/-- Of two values set in turn the later one stays. -/
theorem setValue_setValue (first value : Option Bytes) :
    (c.setValue name key first).setValue name key value = c.setValue name key value := by
  apply Contents.ext
  · rfl
  · funext name' key'
    simp only [value_setValue]
    split <;> rfl

end Contents

namespace MemoryStore

/-- The value of a key of a partition. -/
def value? (s : MemoryStore) (name : String) (key : Bytes) : Option Bytes :=
  (s.partitions.find? name).bind fun p => p.value? key

/-- What calls can tell of the store, other than that it is closed. -/
def contents (s : MemoryStore) : Contents where
  operator name := (s.partitions.find? name).map Partition.operator
  value := s.value?

/-- The store with another partition under a name. -/
def setPartition (s : MemoryStore) (name : String) (p : Partition) : MemoryStore :=
  { s with partitions := s.partitions.insert name p }

/-- A partition is found in an open store if there is one of its name. -/
theorem partition_eq_ok_iff {s : MemoryStore} {name : String} {p : Partition} :
    s.partition name = .ok p ↔ s.closed = false ∧ s.partitions.find? name = some p := by
  unfold partition
  cases s.closed <;> cases s.partitions.find? name <;> simp

theorem partition_of_found {s : MemoryStore} {name : String} {p : Partition}
    (hc : s.closed = false) (hp : s.partitions.find? name = some p) : s.partition name = .ok p :=
  partition_eq_ok_iff.2 ⟨hc, hp⟩

/-- An open store misses a partition that it does not have. -/
theorem partition_of_missing {s : MemoryStore} {name : String} (hc : s.closed = false)
    (hp : s.partitions.find? name = none) :
    s.partition name = .error (.partitionNotFound name) := by
  simp [partition, hc, hp]

/-- Whether there is a partition can be told from the contents. -/
theorem has_eq (s : MemoryStore) (name : String) :
    s.has name = (s.contents.operator name).isSome := by
  simp [has, Table.contains, contents]

/-- So can its way of merging. -/
theorem operator?_eq (s : MemoryStore) (name : String) :
    s.operator? name = (s.contents.operator name).join := by
  cases h : s.partitions.find? name <;> simp [operator?, contents, h]

/-- A get answers with the value of the key and changes nothing. -/
theorem get_run {s : MemoryStore} {name : String} {p : Partition} (hp : s.partition name = .ok p)
    (key : Bytes) : get name key s = (.ok (p.value? key), s) := by
  simp [get, Call.query, hp, Except.map, Partition.value?]

/-- A scan answers with the keys that have a value, in order, and changes nothing. -/
theorem scan_run {s : MemoryStore} {name : String} {p : Partition}
    (hp : s.partition name = .ok p) : scan name s = (.ok p.resolved, s) := by
  simp [scan, Call.query, hp, Except.map]

/-- The value of a key is that in its partition. -/
theorem value?_of_partition {s : MemoryStore} {name : String} {p : Partition}
    (hp : s.partition name = .ok p) (key : Bytes) : s.value? name key = p.value? key := by
  rw [value?, (partition_eq_ok_iff.1 hp).2, Option.bind_some]

/-! ### Stores of equal contents answer alike -/

variable {s u : MemoryStore}

/-- Under equal contents, partitions of one name correspond. -/
theorem partition_congr (h : s.contents = u.contents) {name : String} {p : Partition}
    (hp : s.partitions.find? name = some p) :
    ∃ q, u.partitions.find? name = some q ∧ q.operator = p.operator ∧
      ∀ key, q.value? key = p.value? key := by
  have hop : u.contents.operator name = some p.operator := by rw [← h]; simp [contents, hp]
  obtain ⟨q, hq, hqp⟩ := Option.map_eq_some_iff.1 hop
  refine ⟨q, hq, hqp, ?_⟩
  intro key
  have hv := congrFun (congrFun (congrArg Contents.value h) name) key
  simpa [contents, value?, hp, hq] using hv.symm

/-- Stores of the same contents miss the same partitions. -/
theorem find?_eq_none_congr (h : s.contents = u.contents) {name : String}
    (hp : s.partitions.find? name = none) : u.partitions.find? name = none := by
  have hop : u.contents.operator name = none := by rw [← h]; simp [contents, hp]
  exact Option.map_eq_none_iff.1 hop

/-- Stores of the same contents answer gets alike. -/
theorem get_congr (h : s.contents = u.contents) (hc : s.closed = u.closed) (name : String)
    (key : Bytes) : (get name key s).1 = (get name key u).1 := by
  simp only [get, Call.query, partition, hc]
  cases u.closed with
  | true => rfl
  | false =>
    cases hp : s.partitions.find? name with
    | none => simp [find?_eq_none_congr h hp]
    | some p =>
      obtain ⟨q, hq, _, hv⟩ := partition_congr h hp
      simpa [hq, Except.map, Partition.value?] using (hv key).symm

/-- They answer scans alike. -/
theorem scan_congr (h : s.contents = u.contents) (hc : s.closed = u.closed) (name : String) :
    (scan name s).1 = (scan name u).1 := by
  simp only [scan, Call.query, partition, hc]
  cases u.closed with
  | true => rfl
  | false =>
    cases hp : s.partitions.find? name with
    | none => simp [find?_eq_none_congr h hp]
    | some p =>
      obtain ⟨q, hq, _, hv⟩ := partition_congr h hp
      simpa [hq, Except.map] using Partition.resolved_congr fun key => (hv key).symm

/-- They have partitions of the same names. -/
theorem partitionNames_congr (h : s.contents = u.contents) :
    s.partitionNames = u.partitionNames := by
  apply Table.keys_eq_of_isSome_eq
  intro name
  have hop := congrArg Option.isSome (congrFun (congrArg Contents.operator h) name)
  simpa [contents] using hop

/-- They merge in the same ways. -/
theorem operator?_congr (h : s.contents = u.contents) (name : String) :
    s.operator? name = u.operator? name := by
  rw [operator?_eq, operator?_eq, h]

/-! ### What the calls do -/

/-- The store with one version handed out. -/
def bumped (s : MemoryStore) : MemoryStore := { s with nextVersion := s.nextVersion + 1 }

/-- Setting a partition changes no other one. -/
@[simp] theorem find?_setPartition (s : MemoryStore) (name name' : String) (p : Partition) :
    (s.setPartition name p).partitions.find? name'
      = if name' = name then some p else s.partitions.find? name' := by
  simp [setPartition]

variable {name : String} {p : Partition}

/-- Setting a partition to what it is changes nothing. -/
theorem setPartition_self (hp : s.partition name = .ok p) : s.setPartition name p = s := by
  rw [setPartition, Table.insert_of_found (partition_eq_ok_iff.1 hp).2]

/-- A change of a partition that is found is made there, or refused. -/
theorem modify_run (hp : s.partition name = .ok p) (f : Partition → Except StorageError Partition) :
    modify name f s
      = match f p with
        | .ok p' => (.ok (), s.setPartition name p')
        | .error e => (.error e, s) := by
  simp only [modify, hp, Except.bind]
  rfl

/-- Where the partition is not found, nothing changes. -/
theorem modify_run_of_error {e : StorageError} (hp : s.partition name = .error e)
    (f : Partition → Except StorageError Partition) : modify name f s = (.error e, s) := by
  simp only [modify, hp, Except.bind]

/-- A put into a partition takes a version and sets the value. -/
theorem put_run (hp : s.partition name = .ok p) (key value : Bytes) :
    put name key value s
      = (.ok (), s.bumped.setPartition name (p.put key value s.nextVersion)) :=
  modify_run (s := s.bumped) hp _

/-- A put elsewhere takes a version and nothing more. -/
theorem put_run_of_error {e : StorageError} (hp : s.partition name = .error e)
    (key value : Bytes) : put name key value s = (.error e, s.bumped) :=
  modify_run_of_error (s := s.bumped) hp _

/-- A delete removes the key, and takes no version. -/
theorem delete_run (hp : s.partition name = .ok p) (key : Bytes) :
    delete name key s = (.ok (), s.setPartition name (p.drop key)) :=
  modify_run hp _

/-- A delete elsewhere changes nothing. -/
theorem delete_run_of_error {e : StorageError} (hp : s.partition name = .error e) (key : Bytes) :
    delete name key s = (.error e, s) :=
  modify_run_of_error hp _

/-- A merge takes a version and queues the operand. -/
theorem merge_run {op : MergeOperator} (hp : s.partition name = .ok p)
    (hop : p.operator = some op) (key operand : Bytes) :
    merge name key operand s
      = (.ok (), s.bumped.setPartition name (p.queue key operand s.nextVersion)) := by
  obtain ⟨_, entries⟩ := p
  cases hop
  exact modify_run (s := s.bumped) hp _

/-- A partition without a way of merging refuses the operand; the version is taken. -/
theorem merge_run_of_no_operator (hp : s.partition name = .ok p) (hop : p.operator = none)
    (key operand : Bytes) :
    merge name key operand s = (.error (.mergeNotSupported name), s.bumped) := by
  obtain ⟨_, entries⟩ := p
  cases hop
  exact modify_run (s := s.bumped) hp _

/-- A merge elsewhere takes a version and nothing more. -/
theorem merge_run_of_error {e : StorageError} (hp : s.partition name = .error e)
    (key operand : Bytes) : merge name key operand s = (.error e, s.bumped) :=
  modify_run_of_error (s := s.bumped) hp _

/-! ### What the calls do to the contents -/

/-- The contents with another partition in one place. -/
theorem contents_setPartition (s : MemoryStore) (name : String) (p : Partition) :
    (s.setPartition name p).contents
      = ⟨fun name' => if name' = name then some p.operator else s.contents.operator name',
          fun name' key => if name' = name then p.value? key else s.value? name' key⟩ := by
  apply Contents.ext
  · funext name'
    by_cases h : name' = name <;> simp [contents, h]
  · funext name' key
    by_cases h : name' = name <;> simp [contents, value?, h]

/-- The contents with a partition that merges in the same way: its values in this place, and what there
was in every other. -/
theorem contents_setPartition_eq {p' : Partition} {c : Contents}
    (hp : s.partitions.find? name = some p) (hop : p'.operator = p.operator)
    (hc : c.operator = s.contents.operator) (hvalue : ∀ key, p'.value? key = c.value name key)
    (helsewhere : ∀ other, other ≠ name → ∀ key, c.value other key = s.value? other key) :
    (s.setPartition name p').contents = c := by
  rw [contents_setPartition]
  apply Contents.ext
  · rw [hc]
    funext name'
    by_cases h : name' = name <;> simp [contents, hp, hop, h]
  · funext name' key
    by_cases h : name' = name
    · simp [hvalue, h]
    · simp [helsewhere, h]

/-- A partition that changes the value of one key changes the contents in that place. -/
theorem contents_setPartition_of_value? {p' : Partition} {key : Bytes} {value : Option Bytes}
    (hp : s.partitions.find? name = some p) (hop : p'.operator = p.operator)
    (hv : ∀ key', p'.value? key' = if key' = key then value else p.value? key') :
    (s.setPartition name p').contents = s.contents.setValue name key value := by
  refine contents_setPartition_eq hp hop rfl (fun key' => ?_) fun other hother key' => ?_
  · simp [Contents.setValue, contents, value?, hp, hv]
  · simp [Contents.setValue, contents, hother]

/-- A partition that merges in the same way leaves the contents alone if and only if it leaves every
value alone. -/
theorem contents_setPartition_eq_iff {p' : Partition} (hp : s.partitions.find? name = some p)
    (hop : p'.operator = p.operator) :
    (s.setPartition name p').contents = s.contents ↔ ∀ key, p'.value? key = p.value? key := by
  have hold : ∀ key, s.value? name key = p.value? key := fun key => by simp [value?, hp]
  constructor
  · intro h key
    rw [contents_setPartition] at h
    have hv := congrFun (congrFun (congrArg Contents.value h) name) key
    simpa [contents, hold] using hv
  · intro h
    exact contents_setPartition_eq hp hop rfl (fun key => (h key).trans (hold key).symm)
      fun _ _ _ => rfl

/-- A put sets one value of the contents. -/
theorem put_contents (hp : s.partition name = .ok p) (key value : Bytes) :
    (put name key value s).2.contents = s.contents.setValue name key (some value) := by
  rw [put_run hp]
  have hfind : s.bumped.partitions.find? name = some p := (partition_eq_ok_iff.1 hp).2
  exact contents_setPartition_of_value? hfind rfl fun key' => Partition.value?_put ..

/-- A delete clears one. -/
theorem delete_contents (hp : s.partition name = .ok p) (key : Bytes) :
    (delete name key s).2.contents = s.contents.setValue name key none := by
  rw [delete_run hp]
  exact contents_setPartition_of_value? (partition_eq_ok_iff.1 hp).2 rfl
    fun key' => Partition.value?_drop ..

/-- A merge sets one to what the operand makes of it. -/
theorem merge_contents {op : MergeOperator} (hp : s.partition name = .ok p)
    (hop : p.operator = some op) (key operand : Bytes) :
    (merge name key operand s).2.contents
      = s.contents.setValue name key
          (some (op.fullMerge (s.contents.value name key) [operand])) := by
  rw [merge_run hp hop]
  have hfind : s.bumped.partitions.find? name = some p := (partition_eq_ok_iff.1 hp).2
  have hvalue : s.contents.value name key = p.value? key := by
    simp [contents, value?, (partition_eq_ok_iff.1 hp).2]
  rw [hvalue]
  exact contents_setPartition_of_value? hfind rfl fun key' => Partition.value?_queue hop ..

/-- A partition that is not there yet is created without entries. -/
theorem create_run (hc : s.closed = false) (hname : s.partitions.find? name = none)
    (op : Option MergeOperator) :
    create name op s = (.ok (), s.setPartition name ⟨op, Table.empty⟩) := by
  simp [create, hc, has, Table.contains, hname, setPartition]

/-- A partition is created in an open store that has none of its name, or nothing happens. -/
theorem create_cases (name : String) (op : Option MergeOperator) (s : MemoryStore) :
    (∃ e, create name op s = (.error e, s)) ∨
      s.closed = false ∧ s.partitions.find? name = none ∧
        create name op s = (.ok (), s.setPartition name ⟨op, Table.empty⟩) := by
  unfold create
  split
  · exact .inl ⟨_, rfl⟩
  · case isFalse hc =>
    split
    · exact .inl ⟨_, rfl⟩
    · case isFalse hhas =>
      refine .inr ⟨by simpa using hc, ?_, rfl⟩
      simpa [has, Table.contains] using hhas

/-- A creation succeeds on an open store, and adds the partition without entries. -/
theorem create_eq_ok {s' : MemoryStore} {op : Option MergeOperator}
    (h : create name op s = (.ok (), s')) :
    s.closed = false ∧ s' = s.setPartition name ⟨op, Table.empty⟩ := by
  rcases create_cases name op s with ⟨e, hrun⟩ | ⟨hc, -, hrun⟩
  · cases hrun.symm.trans h
  · exact ⟨hc, (Prod.mk.inj (h.symm.trans hrun)).2⟩

/-- A creation adds a partition without values to the contents. -/
theorem create_contents (hc : s.closed = false) (hname : s.partitions.find? name = none)
    (op : Option MergeOperator) :
    (create name op s).2.contents = s.contents.addPartition name op := by
  rw [create_run hc hname, contents_setPartition]
  apply Contents.ext
  · rfl
  · funext name' key
    by_cases h : name' = name
    · subst h
      simp [Contents.addPartition, contents, value?, hname]
    · simp [Contents.addPartition, contents, h]

end MemoryStore

end AppendLists
