import AppendLists.Proofs.Log.Replay
import AppendLists.Store.Log.Basic

namespace AppendLists

/-!
# Checkpoints

The log that a checkpoint writes creates each partition and puts each value, so it replays to a
store of the same contents. It has no more changes than the store has partitions and entries.

* `MemoryStore.image`: the changes of a checkpoint;
* `effectAll_image`: what they make of an empty store;
* `logged_framePartitions`: they are what a checkpoint frames;
* `length_image_le`: their number.
-/

namespace MemoryStore

/-- The pairs of a partition as changes. -/
def puts (name : String) (entries : List (Bytes × Bytes)) : List Mutation :=
  entries.map fun (key, value) => .put name key value

/-- What a partition lists; nothing if there is none. -/
def listing (s : MemoryStore) (name : String) : List (Bytes × Bytes) :=
  match s.partitions.find? name with
  | some p => p.resolved
  | none => []

/-- The changes that build certain partitions of a store. -/
def imageOf (s : MemoryStore) (names : List String) : List Mutation :=
  names.flatMap fun name => .create name (s.operator? name) :: puts name (s.listing name)

/-- The changes that build a store. -/
def image (s : MemoryStore) : List Mutation := s.imageOf s.partitionNames

variable {s : MemoryStore} {name : String} {p : Partition}

/-- A listing has the keys with a value, in order. -/
theorem listing_of_found (hp : s.partitions.find? name = some p) : s.listing name = p.resolved := by
  rw [listing, hp]

/-! ### What the changes make of an empty store -/

/-- Putting values of a partition sets those and no others. -/
theorem effectAll_puts {c : Contents} {op : Option MergeOperator}
    (hop : c.operator name = some op) {value : Bytes → Option Bytes}
    {entries : List (Bytes × Bytes)} (hvalue : ∀ k v, (k, v) ∈ entries → value k = some v) :
    ∃ c', Mutation.effectAll (puts name entries) c = .ok c' ∧ c'.operator = c.operator ∧
      ∀ name' key, c'.value name' key
        = if name' = name ∧ key ∈ entries.map (·.1) then value key else c.value name' key := by
  induction entries generalizing c with
  | nil => exact ⟨c, rfl, rfl, by simp⟩
  | cons entry entries ih =>
    obtain ⟨k, v⟩ := entry
    have hk : value k = some v := hvalue k v (by simp)
    obtain ⟨c', hall, hop', hv⟩ := @ih (c.setValue name k (some v)) hop
      fun k' v' hmem => hvalue k' v' (List.mem_cons_of_mem _ hmem)
    refine ⟨c', ?_, hop', ?_⟩
    · rw [puts, List.map_cons, Mutation.effectAll]
      simp only [Mutation.effect, hop]
      exact hall
    · intro name' key
      rw [hv]
      by_cases hmem : name' = name ∧ key ∈ entries.map (·.1)
      · -- a key that is put again has the same value then
        rw [if_pos hmem, if_pos ⟨hmem.1, List.mem_cons_of_mem _ hmem.2⟩]
      · rw [if_neg hmem]
        by_cases hkey : name' = name ∧ key = k
        · obtain ⟨rfl, rfl⟩ := hkey
          simp [Contents.setValue, hk]
        · have hnot : ¬ (name' = name ∧ key ∈ ((k, v) :: entries).map (·.1)) := by
            simp only [List.map_cons, List.mem_cons]
            rintro ⟨hname, hkey' | hkey'⟩
            · exact hkey ⟨hname, hkey'⟩
            · exact hmem ⟨hname, hkey'⟩
          rw [if_neg hnot, Contents.setValue]
          exact if_neg hkey

/-- Building a partition that is not there yet gives it its way of merging and its values. -/
theorem effectAll_partition (hp : s.partitions.find? name = some p) {c : Contents}
    (hnew : c.operator name = none) (hempty : ∀ key, c.value name key = none) :
    ∃ c', Mutation.effectAll (.create name (s.operator? name) :: puts name (s.listing name)) c
        = .ok c' ∧
      (∀ name', c'.operator name'
        = if name' = name then s.contents.operator name' else c.operator name') ∧
      ∀ name' key, c'.value name' key
        = if name' = name then s.value? name' key else c.value name' key := by
  have hop : s.operator? name = p.operator := by simp [operator?, hp]
  have hadded : (c.addPartition name p.operator).operator name = some p.operator := by
    simp [Contents.addPartition]
  obtain ⟨c', hall, hop', hv⟩ := effectAll_puts hadded
    (fun k v hmem => Partition.mem_resolved_iff.1 hmem)
  refine ⟨c', ?_, ?_, ?_⟩
  · rw [Mutation.effectAll, hop, listing_of_found hp]
    simp only [Mutation.effect, hnew]
    exact hall
  · intro name'
    rw [hop']
    by_cases hname : name' = name
    · subst hname
      simp [Contents.addPartition, contents, hp]
    · simp [Contents.addPartition, hname]
  · intro name' key
    rw [hv]
    by_cases hname : name' = name
    · subst hname
      have hvalue : s.value? name' key = p.value? key := by simp [value?, hp]
      rw [if_pos rfl, hvalue]
      split
      · rfl
      · case isFalse hmem =>
        -- a key that is not listed has no value
        have hnone : p.value? key = none := by
          cases hpv : p.value? key with
          | none => rfl
          | some v =>
            have hlisted := Partition.mem_resolved_iff.2 hpv
            exact absurd ⟨rfl, List.mem_map.2 ⟨_, hlisted, rfl⟩⟩ hmem
        rw [hnone]
        exact hempty key
    · rw [if_neg hname, if_neg fun h => hname h.1]
      rfl

/-- What a checkpoint writes builds the partitions up again, in whatever order. -/
theorem effectAll_imageOf {names : List String} (hnodup : names.Nodup)
    (hfound : ∀ name ∈ names, (s.partitions.find? name).isSome) {c : Contents}
    (hnew : ∀ name ∈ names, c.operator name = none)
    (hempty : ∀ name ∈ names, ∀ key, c.value name key = none) :
    ∃ c', Mutation.effectAll (s.imageOf names) c = .ok c' ∧
      (∀ name, c'.operator name
        = if name ∈ names then s.contents.operator name else c.operator name) ∧
      ∀ name key, c'.value name key
        = if name ∈ names then s.value? name key else c.value name key := by
  induction names generalizing c with
  | nil => exact ⟨c, rfl, by simp, by simp⟩
  | cons name names ih =>
    obtain ⟨hnot, hnodup⟩ := List.nodup_cons.1 hnodup
    obtain ⟨hhere, hfound⟩ := List.forall_mem_cons.1 hfound
    obtain ⟨p, hp⟩ := Option.isSome_iff_exists.1 hhere
    obtain ⟨c₁, hfirst, hop₁, hv₁⟩ := effectAll_partition hp (hnew name (by simp))
      (hempty name (by simp))
    -- the partitions still to be built have other names, so they are still missing
    have hother : ∀ name' ∈ names, name' ≠ name := by
      rintro name' hmem rfl
      exact hnot hmem
    have hnew₁ : ∀ name' ∈ names, c₁.operator name' = none := by
      intro name' hmem
      rw [hop₁, if_neg (hother name' hmem)]
      exact hnew name' (List.mem_cons_of_mem _ hmem)
    have hempty₁ : ∀ name' ∈ names, ∀ key, c₁.value name' key = none := by
      intro name' hmem key
      rw [hv₁, if_neg (hother name' hmem)]
      exact hempty name' (List.mem_cons_of_mem _ hmem) key
    obtain ⟨c', hrest, hop', hv'⟩ := ih hnodup hfound hnew₁ hempty₁
    refine ⟨c', ?_, ?_, ?_⟩
    · rw [imageOf, List.flatMap_cons, Mutation.effectAll_append hfirst]
      exact hrest
    · intro name'
      rw [hop', hop₁]
      by_cases hname : name' = name
      · simp [hname, hnot]
      · simp [hname]
    · intro name' key
      rw [hv', hv₁]
      by_cases hname : name' = name
      · simp [hname, hnot]
      · simp [hname]

/-- The changes of a checkpoint build a store of the same contents from an empty one. -/
theorem effectAll_image (s : MemoryStore) :
    Mutation.effectAll s.image MemoryStore.empty.contents = .ok s.contents := by
  have hfound : ∀ name ∈ s.partitionNames, (s.partitions.find? name).isSome :=
    fun name hmem => Table.mem_keys_iff.1 hmem
  obtain ⟨c, hall, hop, hv⟩ := effectAll_imageOf s.partitions.nodup_keys hfound
    (c := MemoryStore.empty.contents) (fun _ _ => rfl) (fun _ _ _ => rfl)
  have hc : c = s.contents := by
    apply Contents.ext
    · funext name
      rw [hop]
      split
      · rfl
      · -- what has no partition has none in an empty store either
        case isFalse hmem =>
        have hnone : s.partitions.find? name = none := by
          simpa [partitionNames, Table.mem_keys_iff] using hmem
        simp [contents, hnone, MemoryStore.empty]
    · funext name key
      rw [hv]
      split
      · rfl
      · case isFalse hmem =>
        have hnone : s.partitions.find? name = none := by
          simpa [partitionNames, Table.mem_keys_iff] using hmem
        simp [contents, value?, hnone, MemoryStore.empty]
  rw [← hc]
  exact hall

/-! ### The number of changes -/

/-- It has no more entries than there are keys and partitions. -/
theorem length_imageOf_le {l : List (String × Partition)}
    (hfound : ∀ name p, (name, p) ∈ l → s.partitions.find? name = some p) :
    (s.imageOf (l.map (·.1))).length ≤ Table.total Partition.weight l := by
  induction l with
  | nil => simp [imageOf]
  | cons q l ih =>
    obtain ⟨name, p⟩ := q
    have hp := hfound name p (by simp)
    have hrest := ih fun name' p' hmem => hfound name' p' (List.mem_cons_of_mem _ hmem)
    -- an entry is put once or not at all, and the partition is created
    have hresolved : p.resolved.length ≤ p.entries.size := List.length_filterMap_le ..
    simp only [imageOf, List.map_cons, List.flatMap_cons, List.length_append, List.length_cons,
      Table.total, puts, List.length_map, listing_of_found hp, Partition.weight] at hrest ⊢
    omega

theorem length_image_le (s : MemoryStore) : s.image.length ≤ s.weight :=
  length_imageOf_le fun _ _ hmem => Table.mem_pairs_iff.1 hmem

end MemoryStore

/-! ### What a checkpoint writes -/

namespace LogStore

variable {limit seq last : Nat} {name : String} {bs : Bytes} {s : MemoryStore}

/-- The values of a partition are framed as puts, one after the other. -/
theorem logged_frameValues {entries : List (Bytes × Bytes)}
    (h : frameValues limit name entries seq = .ok (bs, last)) :
    Logged limit seq (MemoryStore.puts name entries) bs ∧ last = seq + entries.length := by
  induction entries generalizing seq bs last with
  | nil =>
    obtain ⟨rfl, rfl⟩ := Prod.mk.inj (Except.ok.inj h)
    exact ⟨.nil _, rfl⟩
  | cons entry entries ih =>
    obtain ⟨k, v⟩ := entry
    rw [frameValues] at h
    obtain ⟨first, hframe, h⟩ := bind_eq_ok h
    obtain ⟨⟨rest, last'⟩, hrest, h⟩ := bind_eq_ok h
    obtain ⟨rfl, rfl⟩ := Prod.mk.inj (Except.ok.inj h)
    obtain ⟨hlogged, rfl⟩ := ih hrest
    exact ⟨.cons hframe hlogged, by rw [List.length_cons]; omega⟩

/-- A checkpoint frames the changes that build the partitions. -/
theorem logged_framePartitions (hc : s.closed = false) {names : List String}
    (hfound : ∀ name ∈ names, (s.partitions.find? name).isSome)
    (h : framePartitions limit s names seq = .ok (bs, last)) :
    Logged limit seq (s.imageOf names) bs ∧ last = seq + (s.imageOf names).length := by
  induction names generalizing seq bs last with
  | nil =>
    obtain ⟨rfl, rfl⟩ := Prod.mk.inj (Except.ok.inj h)
    exact ⟨.nil _, rfl⟩
  | cons name names ih =>
    obtain ⟨hhere, hfound⟩ := List.forall_mem_cons.1 hfound
    obtain ⟨p, hp⟩ := Option.isSome_iff_exists.1 hhere
    rw [framePartitions] at h
    obtain ⟨first, hframe, h⟩ := bind_eq_ok h
    obtain ⟨p', hp', h⟩ := bind_eq_ok h
    obtain rfl : p = p' :=
      Except.ok.inj ((MemoryStore.partition_of_found hc hp).symm.trans hp')
    obtain ⟨⟨values, seq'⟩, hvalues, h⟩ := bind_eq_ok h
    obtain ⟨⟨rest, last'⟩, hrest, h⟩ := bind_eq_ok h
    obtain ⟨rfl, rfl⟩ := Prod.mk.inj (Except.ok.inj h)
    obtain ⟨hlogged, rfl⟩ := logged_frameValues hvalues
    obtain ⟨hlogged', rfl⟩ := ih hfound hrest
    have hcount : (MemoryStore.puts name p.resolved).length = p.resolved.length := by
      simp [MemoryStore.puts]
    rw [MemoryStore.imageOf, List.flatMap_cons, MemoryStore.listing_of_found hp]
    -- the other partitions are numbered behind the values of this one
    constructor
    · apply Logged.append
      · exact .cons hframe hlogged
      · rw [List.length_cons, hcount]
        rwa [Nat.add_right_comm, Nat.add_assoc] at hlogged'
    · rw [List.length_append, List.length_cons, hcount, MemoryStore.imageOf]
      omega

end LogStore

end AppendLists
