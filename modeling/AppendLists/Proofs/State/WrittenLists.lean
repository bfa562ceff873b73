import AppendLists.Proofs.State.Guards
import AppendLists.Proofs.State.ListRefinement

namespace AppendLists

/-!
# What handles write

Whatever handles with one codec are called for, in whatever keys and namespaces and with whatever
layout of storage keys, every value in the partition of the state is the written form of a list:
appended, replaced, moved, and whether or not its operands were combined yet.

* `WrittenList`: the bytes of a list with elements;
* `Partition.ListsOnly`, `MemoryStore.ListsOnly`: every value is one;
* `MemoryStore.guarded_listsOnly`: it stays so as long as lists are written;
* `ListCall.keeps`, `ListCall.keeps_listsOnly`: one call on a handle;
* `Partition.ListsOnly.pass`, `MemoryStore.ListsOnly.compact`: a pass whose filter makes lists of
  lists;
* `MemoryStore.WrittenThrough`: the stores that handles wrote to;
* `MemoryStore.HasList`, `ListsOnly.exists_hasList`: every key of such a store has a list.
-/

variable {α : Type} {codec : Codec α} {name : String}

/-! ### Partitions with lists only -/

/-- Whether bytes are the written form of a list with elements. -/
def WrittenList (codec : Codec α) (value : Bytes) : Prop :=
  ∃ xs, xs ≠ [] ∧ encodeList codec xs = .ok value

/-- Two written lists with a delimiter between them are the written form of both. -/
theorem WrittenList.append (hc : codec.Appending) {a b : Bytes} (ha : WrittenList codec a)
    (hb : WrittenList codec b) : WrittenList codec (a ++ delimiter :: b) := by
  obtain ⟨xs, hxs, hencode⟩ := ha
  obtain ⟨ys, hys, hencode'⟩ := hb
  exact ⟨xs ++ ys, by simp [hxs], hc.encodeList_append hxs hys hencode hencode'⟩

/-- Every value is the written form of a list, and operands are combined in no other way than lists
are; `next` is the next version. -/
structure Partition.ListsOnly (codec : Codec α) (next : Nat) (p : Partition) : Prop where
  /-- If the partition merges, then with the delimiter. -/
  operator : ∀ op, p.operator = some op → op = .stringAppend delimiter
  /-- It satisfies the invariant of memory stores. -/
  sound : p.Sound next
  /-- Every value is the written form of a list. -/
  lists : ∀ key value, p.value? key = some value → WrittenList codec value

namespace Partition.ListsOnly

variable {next : Nat} {p : Partition} {key value : Bytes}

/-- A new partition holds no values at all. -/
theorem empty {op : Option MergeOperator} (hop : ∀ o, op = some o → o = .stringAppend delimiter)
    (next : Nat) : (Partition.mk op Table.empty).ListsOnly codec next where
  operator := hop
  sound := Partition.Sound.empty op next
  lists _ _ h := by simp at h

/-- A put writes one list. -/
theorem put (h : p.ListsOnly codec next) (hvalue : WrittenList codec value) :
    (p.put key value next).ListsOnly codec (next + 1) where
  operator := h.operator
  sound := h.sound.put key value
  lists key' v hv := by
    rw [value?_put] at hv
    split at hv
    · exact Option.some.inj hv ▸ hvalue
    · exact h.lists key' v hv

/-- A removal leaves the others. -/
theorem drop (h : p.ListsOnly codec next) : (p.drop key).ListsOnly codec next where
  operator := h.operator
  sound := h.sound.drop key
  lists key' v hv := by
    rw [value?_drop] at hv
    split at hv
    · cases hv
    · exact h.lists key' v hv

/-- An operand is a list that is put behind the one that is there. -/
theorem queue (h : p.ListsOnly codec next) (hc : codec.Appending)
    (hop : p.operator = some (.stringAppend delimiter)) (hvalue : WrittenList codec value) :
    (p.queue key value next).ListsOnly codec (next + 1) where
  operator := h.operator
  sound := h.sound.queue hop key value
  lists key' v hv := by
    rw [value?_queue hop] at hv
    split at hv
    · -- a list alone, or behind the one that is there
      obtain rfl := Option.some.inj hv
      cases hbefore : p.value? key with
      | none => exact hvalue
      | some before => exact (h.lists key before hbefore).append hc hvalue
    · exact h.lists key' v hv

theorem mono (h : p.ListsOnly codec next) {next' : Nat} (hle : next ≤ next') :
    p.ListsOnly codec next' := ⟨h.operator, h.sound.mono hle, h.lists⟩

end Partition.ListsOnly

/-- Every value in a partition is the written form of a list. -/
def MemoryStore.ListsOnly (codec : Codec α) (name : String) (s : MemoryStore) : Prop :=
  ∃ p, s.partition name = .ok p ∧ p.ListsOnly codec s.nextVersion

/-! ### Calls on the store -/

namespace MemoryStore

theorem ListsOnly.setPartition {s : MemoryStore} (hc : s.closed = false) {p : Partition}
    (h : p.ListsOnly codec s.nextVersion) : (s.setPartition name p).ListsOnly codec name :=
  ⟨p, partition_of_found hc (by simp), h⟩

/-- A get finds nothing but lists. -/
theorem keeps_get (key : Bytes) :
    Call.Keeps (ListsOnly codec name) (Store.get name key)
      fun value : Option Bytes => ∀ v, value = some v → WrittenList codec v := by
  rintro s ⟨p, hp, hlists⟩
  rw [show Store.get name key s = _ from get_run hp key]
  refine ⟨⟨p, hp, hlists⟩, ?_⟩
  rintro value ⟨⟩ v hv
  exact hlists.lists key v hv

/-- A put of a list leaves lists. -/
theorem keeps_put (key : Bytes) {value : Bytes} (hvalue : WrittenList codec value) :
    Call.Keeps (ListsOnly codec name) (Store.put name key value) fun _ => True := by
  rintro s ⟨p, hp, hlists⟩
  rw [show Store.put name key value s = _ from put_run hp key value]
  have hc := (partition_eq_ok_iff.1 hp).1
  exact ⟨.setPartition (s := s.bumped) hc (hlists.put hvalue), fun _ _ => trivial⟩

/-- A delete leaves the other lists. -/
theorem keeps_delete (key : Bytes) :
    Call.Keeps (ListsOnly codec name) (Store.delete name key) fun _ => True := by
  rintro s ⟨p, hp, hlists⟩
  rw [show Store.delete name key s = _ from delete_run hp key]
  exact ⟨.setPartition (partition_eq_ok_iff.1 hp).1 hlists.drop, fun _ _ => trivial⟩

/-- A merge into a partition without a way of merging is refused. -/
theorem keeps_merge (hcodec : codec.Appending) (key : Bytes) {value : Bytes}
    (hvalue : WrittenList codec value) :
    Call.Keeps (ListsOnly codec name) (Store.merge name key value) fun _ => True := by
  rintro s ⟨p, hp, hlists⟩
  have hc := (partition_eq_ok_iff.1 hp).1
  cases hop : p.operator with
  | none =>
    rw [show Store.merge name key value s = _ from merge_run_of_no_operator hp hop key value]
    exact ⟨⟨p, hp, hlists.mono (Nat.le_succ _)⟩, nofun⟩
  | some op =>
    obtain rfl := hlists.operator op hop
    rw [show Store.merge name key value s = _ from merge_run hp hop key value]
    exact ⟨.setPartition (s := s.bumped) hc (hlists.queue hcodec hop hvalue), fun _ _ => trivial⟩

/-- Handles keep lists lists. -/
theorem guarded_listsOnly (hcodec : codec.Appending) (name : String) :
    Guards name (WrittenList codec) (ListsOnly codec name) where
  get := keeps_get
  put key _ hvalue := keeps_put key hvalue
  delete := keeps_delete
  merge key _ hvalue := keeps_merge hcodec key hvalue

end MemoryStore

/-! ### Calls on handles -/

namespace ListState

variable {h h' : ListState α}

/-- At another key a handle is one to the same state. -/
theorem same_of_setKey {key : Part} (hset : h.setKey key = .ok h') :
    h'.context.partition = h.context.partition ∧ h'.codec = h.codec := by
  unfold setKey StateContext.setKey at hset
  cases hbytes : key.serialize with
  | error e =>
    rw [hbytes] at hset
    cases hset
  | ok bytes =>
    rw [hbytes] at hset
    obtain rfl := Except.ok.inj hset
    exact ⟨rfl, rfl⟩

/-- So it is at another namespace. -/
theorem same_of_setNamespace {ns : Part} (hset : h.setNamespace ns = .ok h') :
    h'.context.partition = h.context.partition ∧ h'.codec = h.codec := by
  unfold setNamespace StateContext.setNamespace at hset
  cases hbytes : ns.serialize with
  | error e =>
    rw [hbytes] at hset
    cases hset
  | ok bytes =>
    rw [hbytes] at hset
    obtain rfl := Except.ok.inj hset
    exact ⟨rfl, rfl⟩

end ListState

section

variable {h : ListState α} {W : Bytes → Prop} {P : MemoryStore → Prop}
  (hP : Guards h.context.partition W P)
include hP

/-- Every call on a handle keeps what is kept as long as lists are written, also one that fails. The
handle stays one to the same state with the same codec. -/
theorem ListCall.keeps (hW : ∀ bs, WrittenList h.codec bs → W bs) (c : ListCall α) :
    Call.Keeps P (c.run h) fun a =>
      a.2.context.partition = h.context.partition ∧ a.2.codec = h.codec := by
  have hW' : ∀ xs bs, xs ≠ [] → encodeList h.codec xs = .ok bs → W bs :=
    fun xs bs hxs hencode => hW bs ⟨xs, hxs, hencode⟩
  cases c with
  | setKey key => exact (Call.Keeps.ofExcept _).answered fun _ => ListState.same_of_setKey
  | setNamespace ns =>
    exact (Call.Keeps.ofExcept _).answered fun _ => ListState.same_of_setNamespace
  | add x =>
    exact (ListState.keeps_add hP hW' x).answered fun _ _ => ⟨rfl, rfl⟩
  | addAll xs => exact (ListState.keeps_addAll hP hW' xs).answered fun _ _ => ⟨rfl, rfl⟩
  | update xs => exact (ListState.keeps_update hP hW' xs).answered fun _ _ => ⟨rfl, rfl⟩
  | clear => exact (ListState.keeps_clear hP).answered fun _ _ => ⟨rfl, rfl⟩
  | mergeNamespaces target sources =>
    exact (ListState.keeps_mergeNamespaces hP target sources).answered fun _ _ => ⟨rfl, rfl⟩
  | get => exact (ListState.keeps_get hP).answered fun _ _ => ⟨rfl, rfl⟩
  | getRaw => exact (ListState.keeps_getRaw hP).answered fun _ _ => ⟨rfl, rfl⟩

end

/-- Every call on a handle leaves nothing but lists in its partition, also one that fails. -/
theorem ListCall.keeps_listsOnly {h : ListState α} (hc : h.codec.Appending) (c : ListCall α) :
    Call.Keeps (MemoryStore.ListsOnly h.codec h.context.partition) (c.run h) fun a =>
      a.2.context.partition = h.context.partition ∧ a.2.codec = h.codec :=
  c.keeps (MemoryStore.guarded_listsOnly hc h.context.partition) fun _ hbs => hbs

/-! ### Stores that handles wrote to -/

/-- A pass whose filter makes lists of lists, or removes them, leaves lists. -/
theorem Partition.ListsOnly.pass {next : Nat} {p : Partition} (h : p.ListsOnly codec next)
    {filter : Option PureFilter}
    (hfilter : ∀ value value', WrittenList codec value →
      PureFilter.decide filter (some value) = .ok (some value') → WrittenList codec value')
    {ds : List Decision} (hds : PureFilter.decisions filter p.captured = .ok ds)
    (stats : CompactionStats) :
    (MemoryStore.commitDecisions ds p stats).1.ListsOnly codec next := by
  refine ⟨?_, h.sound.commitDecisions ds stats, ?_⟩
  · rw [MemoryStore.operator_commitDecisions]
    exact h.operator
  · intro key value hv
    rw [Partition.value?_pass h.sound hds] at hv
    obtain ⟨v, hv', hkeep⟩ := Option.bind_eq_some_iff.1 hv
    -- what is kept of a list is what the filter made of it
    cases hdecide : PureFilter.decide filter (some v) with
    | error e =>
      rw [PureFilter.keep, hdecide] at hkeep
      cases hkeep
    | ok outcome =>
      rw [PureFilter.keep, hdecide] at hkeep
      exact hfilter v value (h.lists key v hv') (hdecide.trans (congrArg _ hkeep))

/-- A pass that fails leaves the store as it was, and one whose filter makes lists of lists leaves
lists. -/
theorem MemoryStore.ListsOnly.compact {s : MemoryStore} {ω : Type} (h : s.ListsOnly codec name)
    (filter : Option PureFilter)
    (hfilter : ∀ value value', WrittenList codec value →
      PureFilter.decide filter (some value) = .ok (some value') → WrittenList codec value')
    (w : ω) :
    (AppendLists.compact name (filter.map PureFilter.toFilter) (s, w)).2.1.ListsOnly codec name := by
  obtain ⟨p, hp, hlists⟩ := h
  rw [compact_run hp]
  cases hds : PureFilter.decisions filter p.captured with
  | error e => exact ⟨p, hp, hlists⟩
  | ok ds =>
    simp only [commit_run hp]
    exact .setPartition (partition_eq_ok_iff.1 hp).1 (hlists.pass hfilter hds _)

namespace MemoryStore

/-- The open stores in which a partition was created and written by handles with one codec, whatever
happened elsewhere. The handles may point anywhere, and their calls may fail. -/
inductive WrittenThrough (codec : Codec α) (name : String) : MemoryStore → Prop where
  /-- The partition is new, and merges with the delimiter if it merges. -/
  | created {s s' : MemoryStore} {op : Option MergeOperator}
      (hop : ∀ o, op = some o → o = .stringAppend delimiter)
      (h : MemoryStore.create name op s = (.ok (), s')) : WrittenThrough codec name s'
  /-- A call on a handle. -/
  | called {s : MemoryStore} (hs : WrittenThrough codec name s) (context : StateContext)
      (hname : context.partition = name) (c : ListCall α) :
      WrittenThrough codec name (c.run ⟨context, codec⟩ s).2
  /-- A pass that combines operands. -/
  | folded {s : MemoryStore} (hs : WrittenThrough codec name s) :
      WrittenThrough codec name (AppendLists.compact name none (s, ())).2.1
  /-- Whatever leaves the partition alone. -/
  | elsewhere {s s' : MemoryStore} (hs : WrittenThrough codec name s)
      (hopen : s'.closed = s.closed)
      (hsame : s'.partitions.find? name = s.partitions.find? name)
      (hversion : s.nextVersion ≤ s'.nextVersion) : WrittenThrough codec name s'

/-- Handles leave nothing but lists. -/
theorem WrittenThrough.listsOnly {s : MemoryStore} (h : s.WrittenThrough codec name)
    (hcodec : codec.Appending) : s.ListsOnly codec name := by
  induction h with
  | created hop h =>
    obtain ⟨hc, rfl⟩ := create_eq_ok h
    exact .setPartition hc (.empty hop _)
  | called _ context hname c ih =>
    subst hname
    exact (ListCall.keeps_listsOnly (h := ⟨context, codec⟩) hcodec c _ ih).1
  | folded _ ih =>
    refine ih.compact none ?_ ()
    rintro value _ hvalue ⟨⟩
    exact hvalue
  | elsewhere _ hopen hsame hversion ih =>
    obtain ⟨p, hp, hlists⟩ := ih
    obtain ⟨hc, hfound⟩ := partition_eq_ok_iff.1 hp
    exact ⟨p, partition_of_found (hopen.trans hc) (hsame.trans hfound), hlists.mono hversion⟩

/-- A key has a list: its value is the written form of it, or there is none if it is empty. -/
structure HasList (codec : Codec α) (name : String) (key : Bytes) (xs : List α)
    (s : MemoryStore) : Prop where
  /-- Every element can be written. -/
  writes : ∀ x ∈ xs, codec.Writes x
  /-- The value of the key. -/
  value : s.value? name key = written codec xs

/-- A value is the written form of the list that its key has. -/
theorem exists_hasList_of_value (hcodec : codec.Appending) {s : MemoryStore} {p : Partition}
    (hp : s.partition name = .ok p) (hlists : p.ListsOnly codec s.nextVersion) {key value : Bytes}
    (hv : p.value? key = some value) :
    ∃ xs, encodeList codec xs = .ok value ∧ s.HasList codec name key xs := by
  obtain ⟨xs, hxs, hencode⟩ := hlists.lists key value hv
  refine ⟨xs, hencode, hcodec.encodeList_isOk_iff.1 ⟨value, hencode⟩, ?_⟩
  rw [value?_of_partition hp, hv, written_of_encodeList hxs hencode]

/-- Every key has a list. -/
theorem ListsOnly.exists_hasList {s : MemoryStore} (h : s.ListsOnly codec name)
    (hcodec : codec.Appending) (key : Bytes) : ∃ xs, s.HasList codec name key xs := by
  obtain ⟨p, hp, hlists⟩ := h
  cases hv : p.value? key with
  | none => exact ⟨[], List.forall_mem_nil _, (value?_of_partition hp key).trans hv⟩
  | some value =>
    obtain ⟨xs, -, hhas⟩ := exists_hasList_of_value hcodec hp hlists hv
    exact ⟨xs, hhas⟩

end MemoryStore

end AppendLists
