import Mathlib
import AppendLists.Codec.Fixed
import AppendLists.Codec.Stamped
import AppendLists.Proofs.Backend.Migrating
import AppendLists.Proofs.ListFormat.Migration
import AppendLists.Proofs.Memory.Interleaving
import AppendLists.Proofs.State.WrittenLists

namespace AppendLists

/-!
# Upgrades in memory

An upgrade of a list state in memory converts every element of every list, or nothing at all: it
writes only after every list was migrated, and writing cannot fail then.

* `MemoryStore.Overwritten`, `MemoryStore.writeAll_run`: what putting values in turn leaves;
* `Backend.migrateAll_of_migrates`, `migrateAll_of_failure`: the lists of a partition migrated;
* `Backend.Upgraded`: what an upgrade that succeeds leaves;
* `Backend.upgradeList_elementwise`: all that an upgrade can come to;
* `Backend.upgraded_numbers`: numbers that become stamped.
-/

variable {α β : Type} {name : String}

/-! ### Writing several lists -/

namespace MemoryStore

/-- The pending operands are those of the entry. -/
theorem pending_of_entryAt {s : MemoryStore} {key : Bytes} {e : Entry}
    (h : s.entryAt name key = some e) : s.pending name key = e.operands.length := by
  unfold entryAt at h
  rw [pending]
  simp only [h]

theorem pending_of_no_entry {s : MemoryStore} {key : Bytes} (h : s.entryAt name key = none) :
    s.pending name key = 0 := by
  unfold entryAt at h
  rw [pending]
  simp only [h]

theorem value?_of_no_entry {s : MemoryStore} {key : Bytes} (h : s.entryAt name key = none) :
    s.value? name key = none := by
  unfold entryAt at h
  unfold value?
  cases hp : s.partitions.find? name with
  | none => rfl
  | some p =>
    rw [hp, Option.bind_some] at h
    rw [Option.bind_some, Partition.value?, h]
    rfl

/-- Without operands the value of an entry is its base. -/
theorem value?_of_entryAt {s : MemoryStore} {key value : Bytes} {version : Nat}
    (h : s.entryAt name key = some ⟨some value, [], version⟩) :
    s.value? name key = some value := by
  obtain ⟨p, hp, he⟩ := Option.bind_eq_some_iff.1 h
  rw [value?, hp, Option.bind_some, Partition.value?, he]
  rfl

/-- In a partition that satisfies the invariant a key without a value has no entry. -/
theorem entryAt_of_no_value {s : MemoryStore} {p : Partition} (hp : s.partition name = .ok p)
    (hsound : p.Sound s.nextVersion) {key : Bytes} (h : s.value? name key = none) :
    s.entryAt name key = none := by
  rw [entryAt_of_partition hp]
  rw [value?_of_partition hp] at h
  have hisSome := hsound.value?_isSome key
  rw [h] at hisSome
  exact Option.not_isSome_iff_eq_none.1 (by simp [← hisSome])

/-- A listing has every key once. -/
theorem nodup_keys_resolved (p : Partition) : (p.resolved.map (·.1)).Nodup :=
  (p.entries.filterMap p.resolve).nodup_keys

/-- The keys that a scan lists are those with a value. -/
theorem mem_keys_resolved_iff {s : MemoryStore} {p : Partition} (hp : s.partition name = .ok p)
    {key : Bytes} : key ∈ p.resolved.map (·.1) ↔ (s.value? name key).isSome := by
  rw [value?_of_partition hp, Option.isSome_iff_exists]
  simp only [List.mem_map, Prod.exists, Partition.mem_resolved_iff]
  constructor
  · rintro ⟨_, value, hvalue, rfl⟩
    exact ⟨value, hvalue⟩
  · rintro ⟨value, hvalue⟩
    exact ⟨key, value, hvalue, rfl⟩

/-- What putting values into a partition leaves. -/
structure Overwritten (name : String) (entries : List (Bytes × Bytes)) (s s' : MemoryStore) :
    Prop where
  /-- The other partitions are as they were. -/
  elsewhere : ∀ other, other ≠ name → s'.partitions.find? other = s.partitions.find? other
  /-- Each of the keys has its value, and no operands. -/
  put : ∀ key value, (key, value) ∈ entries →
    ∃ version, s'.entryAt name key = some ⟨some value, [], version⟩
  /-- The other keys are as they were. -/
  kept : ∀ key, key ∉ entries.map (·.1) → s'.entryAt name key = s.entryAt name key

/-- Putting values under different keys in turn cannot fail in memory. -/
theorem writeAll_run {s : MemoryStore} {p : Partition} (hp : s.partition name = .ok p)
    {entries : List (Bytes × Bytes)} (hkeys : (entries.map (·.1)).Nodup) :
    ∃ s', Backend.writeAll name entries s = (.ok (), s') ∧ Overwritten name entries s s' := by
  -- the store changes with every put, so it is general
  induction entries generalizing s p with
  | nil =>
    refine ⟨s, rfl, fun _ _ => rfl, ?_, fun _ _ => rfl⟩
    intro key value h
    exact (List.not_mem_nil h).elim
  | cons entry entries ih =>
    obtain ⟨key, value⟩ := entry
    obtain ⟨hkey, hkeys⟩ := List.nodup_cons.1 hkeys
    have hc := (partition_eq_ok_iff.1 hp).1
    let p₁ := p.put key value s.nextVersion
    let s₁ := s.bumped.setPartition name p₁
    have hput : Store.put name key value s = (.ok (), s₁) := put_run hp key value
    have hp₁ : s₁.partition name = .ok p₁ := partition_of_found hc (by simp [s₁])
    obtain ⟨s', hrun, hrest⟩ := ih hp₁ hkeys
    have hfirst : ∀ key', s₁.entryAt name key'
        = if key' = key then some ⟨some value, [], s.nextVersion⟩ else s.entryAt name key' := by
      intro key'
      rw [entryAt_of_partition hp₁, entryAt_of_partition hp]
      exact Table.find?_insert ..
    refine ⟨s', ?_, ?_, ?_, ?_⟩
    · rw [Backend.writeAll, Call.bind_of_ok (Call.attempting_of_ok .writingMigrated hput), hrun]
    · intro other hother
      rw [hrest.elsewhere other hother]
      show (s.bumped.setPartition name p₁).partitions.find? other = _
      rw [find?_setPartition, if_neg hother]
      rfl
    · intro key' value' hmem
      rcases List.mem_cons.1 hmem with heq | hmem
      · -- the first value is not overwritten, because its key does not come again
        obtain ⟨rfl, rfl⟩ := Prod.mk.inj heq
        exact ⟨s.nextVersion, by rw [hrest.kept key' hkey, hfirst, if_pos rfl]⟩
      · exact hrest.put key' value' hmem
    · intro key' hnot
      rw [List.map_cons, List.mem_cons, not_or] at hnot
      rw [hrest.kept key' hnot.2, hfirst, if_neg hnot.1]

namespace Overwritten

variable {codec : Codec α} {s s' : MemoryStore} {entries : List (Bytes × Bytes)} {key : Bytes}

/-- A key whose value was put has the list of it. -/
theorem hasList (hc : codec.Appending) (h : Overwritten name entries s s') {xs : List α}
    (hxs : xs ≠ []) {value : Bytes} (hvalue : encodeList codec xs = .ok value) (hmem : (key, value) ∈ entries) :
    s'.HasList codec name key xs ∧ s'.pending name key = 0 := by
  obtain ⟨version, hentry⟩ := h.put key value hmem
  refine ⟨⟨hc.encodeList_isOk_iff.1 ⟨value, hvalue⟩, ?_⟩, pending_of_entryAt hentry⟩
  rw [value?_of_entryAt hentry, written_of_encodeList hxs hvalue]

/-- A key that had no entry and got none has the empty list. -/
theorem hasList_nil (h : Overwritten name entries s s') (hentry : s.entryAt name key = none)
    (hnot : key ∉ entries.map (·.1)) :
    s'.HasList codec name key [] ∧ s'.pending name key = 0 := by
  rw [← h.kept key hnot] at hentry
  exact ⟨⟨List.forall_mem_nil _, value?_of_no_entry hentry⟩, pending_of_no_entry hentry⟩

end Overwritten

end MemoryStore

/-! ### Migrating the lists of a partition -/

namespace MemoryStore

variable {codec : Codec α} {s : MemoryStore} {p : Partition} {key : Bytes} {xs : List α}

/-- A list with elements is listed as its written form. -/
theorem HasList.exists_mem_resolved (hc : codec.Appending) (h : s.HasList codec name key xs)
    (hp : s.partition name = .ok p) (hxs : xs ≠ []) :
    ∃ value, encodeList codec xs = .ok value ∧ (key, value) ∈ p.resolved := by
  obtain ⟨value, hvalue, hw⟩ := exists_written hc hxs h.writes
  refine ⟨value, hvalue, Partition.mem_resolved_iff.2 ?_⟩
  rw [← value?_of_partition hp, h.value, hw]

end MemoryStore

namespace Backend

variable {prior : Codec α} {new : Codec β} {convert : ElementMigration α β}

section

variable {s : MemoryStore} {p : Partition} (hc : prior.Conforming) (hnew : new.Appending)
include hc hnew

/-- If every element migrates, so does every list, and becomes the written form of the converted
list. -/
theorem migrateAll_of_migrates (hp : s.partition name = .ok p)
    (hlists : p.ListsOnly prior s.nextVersion)
    (hall : ∀ key xs, s.HasList prior name key xs → ∀ x ∈ xs, Migrates new convert x) :
    ∃ migrated, migrateAll prior new convert p.resolved = .ok migrated ∧
      ∀ key xs, s.HasList prior name key xs → xs ≠ [] →
        ∃ ys value, xs.mapM convert = .ok ys ∧ encodeList new ys = .ok value ∧
          (key, value) ∈ migrated := by
  have hone : ∀ entry ∈ p.resolved,
      ∃ entry', migrateEntry prior new convert entry = .ok entry' := by
    rintro ⟨key, value⟩ hmem
    obtain ⟨xs, hencode, hhas⟩ :=
      MemoryStore.exists_hasList_of_value hc.appending hp hlists (Partition.mem_resolved_iff.1 hmem)
    obtain ⟨ys, value', hys, hvalue'⟩ := exists_converted hnew (hall key xs hhas)
    exact ⟨(key, value'), migrateEntry_eq_ok_iff.2
      ⟨rfl, _, hc.migrateList_encodeList hencode hys hvalue'⟩⟩
  obtain ⟨migrated, hmigrated⟩ := mapM_isOk_iff.2 hone
  rw [← migrateAll_eq_mapM] at hmigrated
  refine ⟨migrated, hmigrated, ?_⟩
  intro key xs hhas hxs
  obtain ⟨value, hencode, hmem⟩ := hhas.exists_mem_resolved hc.appending hp hxs
  obtain ⟨ys, value', hys, hvalue'⟩ := exists_converted hnew (hall key xs hhas)
  refine ⟨ys, value', hys, hvalue', ?_⟩
  -- the key was migrated, and its value can be no other than that of its list
  have hkey : key ∈ migrated.map (·.1) := by
    rw [keys_of_migrateAll hmigrated]
    exact List.mem_map.2 ⟨(key, value), hmem, rfl⟩
  obtain ⟨⟨_, out⟩, hout, rfl⟩ := List.mem_map.1 hkey
  rw [migrateAll_eq_mapM] at hmigrated
  obtain ⟨⟨key', v⟩, hentry, hrun⟩ := exists_of_mem_mapM_eq_ok hmigrated hout
  obtain ⟨rfl, count, hlist⟩ := migrateEntry_eq_ok_iff.1 hrun
  have hsame := (Partition.mem_resolved_iff.1 hentry).symm.trans (Partition.mem_resolved_iff.1 hmem)
  obtain rfl := Option.some.inj hsame
  rw [hc.migrateList_encodeList hencode hys hvalue'] at hlist
  obtain rfl := (Prod.mk.inj hlist).2
  exact hout

/-- If some element does not migrate, the lists do not, and the error is that of an element. -/
theorem migrateAll_of_failure (hp : s.partition name = .ok p)
    (hlists : p.ListsOnly prior s.nextVersion)
    (hfail : ¬ ∀ key xs, s.HasList prior name key xs → ∀ x ∈ xs, Migrates new convert x) :
    ∃ e, migrateAll prior new convert p.resolved = .error e ∧
      ∃ key done x behind, s.HasList prior name key (done ++ x :: behind) ∧
        MigrationFailure prior new convert done.length x e := by
  -- if all lists had migrated, so had every element
  cases hmigrate : migrateAll prior new convert p.resolved with
  | ok migrated =>
    refine absurd ?_ hfail
    intro key xs hhas
    refine Classical.byContradiction fun hfails => ?_
    have hxs : xs ≠ [] := by
      rintro rfl
      exact hfails (List.forall_mem_nil _)
    obtain ⟨value, hencode, hmem⟩ := hhas.exists_mem_resolved hc.appending hp hxs
    rw [migrateAll_eq_mapM] at hmigrate
    obtain ⟨entry, hentry⟩ := mapM_isOk_iff.1 ⟨migrated, hmigrate⟩ _ hmem
    obtain ⟨-, count, hlist⟩ := migrateEntry_eq_ok_iff.1 hentry
    obtain ⟨_, _, _, _, _, _, hrun⟩ := hc.migrateList_encodeList_of_failure hnew hencode hfails
    rw [hrun] at hlist
    cases hlist
  | error e =>
    refine ⟨e, rfl, ?_⟩
    rw [migrateAll_eq_mapM] at hmigrate
    obtain ⟨⟨key, value⟩, hmem, hentry⟩ := exists_of_mapM_eq_error hmigrate
    rw [migrateEntry_eq_error_iff] at hentry
    -- the error is that of one entry, and its list tells the element
    obtain ⟨xs, hencode, hhas⟩ :=
      MemoryStore.exists_hasList_of_value hc.appending hp hlists (Partition.mem_resolved_iff.1 hmem)
    by_cases hmigrates : ∀ x ∈ xs, Migrates new convert x
    · obtain ⟨ys, value', hys, hvalue'⟩ := exists_converted hnew hmigrates
      rw [hc.migrateList_encodeList hencode hys hvalue'] at hentry
      cases hentry
    · obtain ⟨done, x, behind, e', rfl, he', hrun⟩ :=
        hc.migrateList_encodeList_of_failure hnew hencode hmigrates
      rw [hrun] at hentry
      obtain rfl := Except.error.inj hentry
      exact ⟨key, done, x, behind, hhas, he'⟩

end

/-! ### Upgrades -/

/-- What an upgrade of a list state leaves that answers with a number of keys. -/
structure Upgraded (name : String) (prior : Codec α) (new : Codec β)
    (convert : ElementMigration α β) (b : Backend MemoryStore) (count : Nat)
    (b' : Backend MemoryStore) : Prop where
  /-- The answer is the number of keys that have a value. -/
  counted : ∃ keys : List Bytes, keys.Nodup ∧ keys.length = count ∧
    ∀ key, key ∈ keys ↔ (b.store.value? name key).isSome
  /-- Every key has the converted list, written with the new codec, and no operands. -/
  converted : ∀ key xs, b.store.HasList prior name key xs → ∃ ys, xs.mapM convert = .ok ys ∧
    b'.store.HasList new name key ys ∧ b'.store.pending name key = 0
  /-- The other partitions are as they were, down to their operands. -/
  elsewhere : ∀ other, other ≠ name →
    b'.store.partitions.find? other = b.store.partitions.find? other
  /-- The state is registered with the new codec, and the others are as they were. -/
  registry : b'.registry = b.registry.insert name ⟨name, .list, new.descriptor⟩
  /-- The layout of keys is as it was. -/
  builder : b'.builder = b.builder
  /-- The settings are as they were. -/
  config : b'.config = b.config

/-- **Upgrades are element by element, and all or nothing.** An upgrade of a state that is not
registered, is no list state, or is registered with another codec than the prior one fails and
leaves the backend as it was. Where handles with the prior codec wrote, every key has a list. The
upgrade converts every element of every list if all of them can be converted and written with the
new codec. If some cannot, the error is that of such an element, and the backend is as it was. -/
theorem upgradeList_elementwise (name : String) (prior : Codec α) (new : Codec β)
    (convert : ElementMigration α β) (b : Backend MemoryStore) :
    (∀ e, b.Unfit name prior.descriptor e →
      upgradeList name prior new convert b = (.error e, b)) ∧
    (b.HasState name .list prior.descriptor → prior.Conforming → new.Appending →
      b.store.WrittenThrough prior name →
        (∀ key, ∃ xs, b.store.HasList prior name key xs) ∧
        ((∀ key xs, b.store.HasList prior name key xs → ∀ x ∈ xs, Migrates new convert x) →
          ∃ count b', upgradeList name prior new convert b = (.ok count, b') ∧
            Upgraded name prior new convert b count b') ∧
        ((¬ ∀ key xs, b.store.HasList prior name key xs → ∀ x ∈ xs, Migrates new convert x) →
          ∃ e, upgradeList name prior new convert b = (.error e, b) ∧
            ∃ key done x behind, b.store.HasList prior name key (done ++ x :: behind) ∧
              MigrationFailure prior new convert done.length x e)) := by
  refine ⟨fun e he => upgradeList_of_unfit he, ?_⟩
  intro hstate hc hnew hwritten
  obtain ⟨p, hp, hlists⟩ := hwritten.listsOnly hc.appending
  have hscan : Store.scan name b.store = (.ok p.resolved, b.store) := by
    show MemoryStore.scan name b.store = _
    simp [MemoryStore.scan, Call.query, hp, Except.map]
  rw [upgradeList_of_hasState hstate]
  refine ⟨MemoryStore.ListsOnly.exists_hasList ⟨p, hp, hlists⟩ hc.appending, ?_, ?_⟩
  · -- every list is converted before the first one is written
    intro hall
    obtain ⟨migrated, hmigrated, hlist⟩ := migrateAll_of_migrates hc hnew hp hlists hall
    have hkeys := keys_of_migrateAll hmigrated
    have hnodup := hkeys ▸ MemoryStore.nodup_keys_resolved p
    obtain ⟨s', hwrite, hover⟩ := MemoryStore.writeAll_run hp hnodup
    refine ⟨_, _, rewriteLists_of_write hscan hmigrated hwrite, ?_, ?_, hover.elsewhere, rfl, rfl,
      rfl⟩
    · refine ⟨migrated.map (·.1), hnodup, List.length_map _, fun key => ?_⟩
      rw [hkeys, MemoryStore.mem_keys_resolved_iff hp]
    · intro key xs hhas
      by_cases hxs : xs = []
      · -- a key without a list has no entry, and none is made
        subst hxs
        have hnone : b.store.value? name key = none := hhas.value
        have hnot : key ∉ migrated.map (·.1) := by
          rw [hkeys, MemoryStore.mem_keys_resolved_iff hp, hnone]
          simp
        have hentry := MemoryStore.entryAt_of_no_value hp hlists.sound hnone
        exact ⟨[], rfl, hover.hasList_nil hentry hnot⟩
      · obtain ⟨ys, value, hys, hvalue, hmem⟩ := hlist key xs hhas hxs
        exact ⟨ys, hys, hover.hasList hnew (ne_nil_of_mapM_eq_ok hys hxs) hvalue hmem⟩
  · intro hfail
    obtain ⟨e, hmigrate, helement⟩ := migrateAll_of_failure hc hnew hp hlists hfail
    exact ⟨e, rewriteLists_of_migrate_error hscan hmigrate, helement⟩

/-- Two lists of numbers, one of them a value with an operand behind it and one with two operands
and no value, become lists of stamped numbers. -/
theorem upgraded_numbers :
    let context (key : UInt8) : StateContext :=
      { StateContext.fresh "s" (KeyBuilder.composite 128) 128 with current := some ⟨0, [key]⟩ }
    let call (key : UInt8) (c : ListCall UInt64) (s : MemoryStore) : MemoryStore :=
      (c.run ⟨context key, Codec.u64⟩ s).2
    let created := MemoryStore.create "s" (some (.stringAppend delimiter)) MemoryStore.empty
    let store :=
      call 2 (.add 2) (call 2 (.add 1) (call 1 (.add 8) (call 1 (.update [7]) created.2)))
    let b : Backend MemoryStore := ⟨store, KeyBuilder.composite 128, .default,
      Table.empty.insert "s" ⟨"s", .list, Codec.u64.descriptor⟩⟩
    let key₁ := KeyBuilder.composite 128 0 [1] []
    let key₂ := KeyBuilder.composite 128 0 [2] []
    b.HasState "s" .list Codec.u64.descriptor ∧ Codec.u64.Conforming ∧
      store.WrittenThrough Codec.u64 "s" ∧
      (store.pending "s" key₁ = 1 ∧ store.pending "s" key₂ = 2) ∧
      ∃ b', upgradeList "s" Codec.u64 Codec.u64.stamped (.enableExpiry 5) b = (.ok 2, b') ∧
        (b'.store.HasList Codec.u64.stamped "s" key₁ [⟨7, 5⟩, ⟨8, 5⟩] ∧
          b'.store.pending "s" key₁ = 0) ∧
        b'.store.HasList Codec.u64.stamped "s" key₂ [⟨1, 5⟩, ⟨2, 5⟩] ∧
          b'.store.pending "s" key₂ = 0 := by
  intro context call created store b key₁ key₂
  have hstate : b.HasState "s" .list Codec.u64.descriptor :=
    ⟨⟨"s", .list, Codec.u64.descriptor⟩, rfl, rfl, rfl⟩
  have hcreate : MemoryStore.create "s" (some (.stringAppend delimiter)) MemoryStore.empty
      = (.ok (), created.2) := rfl
  have hcreated : created.2.WrittenThrough Codec.u64 "s" :=
    .created (fun _ hop => (Option.some.inj hop).symm) hcreate
  have hwritten : store.WrittenThrough Codec.u64 "s" :=
    (((hcreated.called (context 1) rfl (.update [7])).called (context 1) rfl (.add 8)).called
      (context 2) rfl (.add 1)).called (context 2) rfl (.add 2)
  have hall : ∀ key xs, b.store.HasList Codec.u64 "s" key xs →
      ∀ x ∈ xs, Migrates Codec.u64.stamped (.enableExpiry 5) x :=
    fun _ _ _ x _ => ⟨⟨x, 5⟩, rfl, _, rfl⟩
  have hlist₁ : b.store.HasList Codec.u64 "s" key₁ [7, 8] :=
    ⟨fun _ _ => ⟨_, rfl⟩, by decide +kernel⟩
  have hlist₂ : b.store.HasList Codec.u64 "s" key₂ [1, 2] :=
    ⟨fun _ _ => ⟨_, rfl⟩, by decide +kernel⟩
  have hcount : (upgradeList "s" Codec.u64 Codec.u64.stamped (.enableExpiry 5) b).1.toOption
      = some 2 := by cbv
  have happending := Codec.conforming_u64.stamped.appending
  obtain ⟨-, hupgrades⟩ :=
    upgradeList_elementwise "s" Codec.u64 Codec.u64.stamped (.enableExpiry 5) b
  obtain ⟨-, hsucceeds, -⟩ := hupgrades hstate Codec.conforming_u64 happending hwritten
  obtain ⟨count, b', hrun, hupgraded⟩ := hsucceeds hall
  rw [hrun] at hcount
  obtain rfl : count = 2 := Option.some.inj hcount
  obtain ⟨ys₁, hys₁, hafter₁⟩ := hupgraded.converted key₁ [7, 8] hlist₁
  obtain ⟨ys₂, hys₂, hafter₂⟩ := hupgraded.converted key₂ [1, 2] hlist₂
  obtain rfl : [⟨7, 5⟩, ⟨8, 5⟩] = ys₁ := Except.ok.inj hys₁
  obtain rfl : [⟨1, 5⟩, ⟨2, 5⟩] = ys₂ := Except.ok.inj hys₂
  exact ⟨hstate, Codec.conforming_u64, hwritten, by decide +kernel, b', hrun, hafter₁, hafter₂⟩

end Backend

end AppendLists
