import AppendLists.Proofs.Backend.Registration
import AppendLists.Proofs.Backend.Upgrade

namespace AppendLists

/-!
# List states in memory

What each call of a backend over a memory store comes to where the partitions of list states hold
lists only: it changes one partition at most, and leaves lists in it, in the codec that is registered
afterwards.

* `MemoryStore.ChangesOnly`, `guarded_changesOnly`: what calls on one partition do to the others;
* `Backend.register_cases`, `registerList_isOk_iff`, `listFilter_eq_ok_iff`: what registrations and
  requests for filters come to;
* `ElementTransformer.keeps_writtenList`: transformed lists are lists;
* `MemoryStore.Overwritten.listsOnly`, `Backend.upgradeList_listsOnly`: what upgrades come to.
-/

variable {α β : Type} {name : String}

/-! ### One partition at a time -/

namespace MemoryStore

/-- What calls on one partition do to the rest of a store. -/
structure ChangesOnly (name : String) (s s' : MemoryStore) : Prop where
  /-- It is open if it was. -/
  closed : s'.closed = s.closed
  /-- The other partitions are as they were. -/
  elsewhere : ∀ other, other ≠ name → s'.partitions.find? other = s.partitions.find? other
  /-- Versions only grow. -/
  version : s.nextVersion ≤ s'.nextVersion

variable {s s' : MemoryStore}

namespace ChangesOnly

theorem refl (name : String) (s : MemoryStore) : ChangesOnly name s s :=
  ⟨rfl, fun _ _ => rfl, Nat.le_refl _⟩

/-- Setting the partition changes no other one. -/
theorem setPartition (h : ChangesOnly name s s') (p : Partition) :
    ChangesOnly name s (s'.setPartition name p) where
  closed := h.closed
  elsewhere other hother := by rw [find?_setPartition, if_neg hother, h.elsewhere other hother]
  version := h.version

/-- Taking a version changes no partition. -/
theorem bumped (h : ChangesOnly name s s') : ChangesOnly name s s'.bumped :=
  ⟨h.closed, h.elsewhere, Nat.le_succ_of_le h.version⟩

/-- A pass is one of these calls, whether it fails or commits. -/
theorem compact {ω : Type} (name : String) (s : MemoryStore) (filter : Option PureFilter) (w : ω) :
    ChangesOnly name s
      (AppendLists.compact name (filter.map PureFilter.toFilter) (s, w)).2.1 := by
  cases hp : s.partition name with
  | error e =>
    rw [compact_of_capture_error (capture_run_of_error hp)]
    exact .refl name s
  | ok p =>
    rw [compact_run hp]
    cases hds : PureFilter.decisions filter p.captured with
    | error e => exact .refl name s
    | ok ds =>
      simp only [commit_run hp]
      exact (refl name s).setPartition _

end ChangesOnly

/-- So are the calls that handles make, whatever they write. -/
theorem guarded_changesOnly (name : String) (s : MemoryStore) :
    Guards name (fun _ => True) (ChangesOnly name s) where
  get key := fun s' h => ⟨h, fun _ _ _ _ => trivial⟩
  put key value _ := by
    intro s' h
    refine ⟨?_, fun _ _ => trivial⟩
    show ChangesOnly name s (MemoryStore.put name key value s').2
    -- -- a write counts even where the partition is missing, so the store has been bumped either
    -- way
    cases hp : s'.partition name with
    | error e =>
      rw [put_run_of_error hp]
      exact h.bumped
    | ok p =>
      rw [put_run hp]
      exact h.bumped.setPartition _
  delete key := by
    intro s' h
    refine ⟨?_, fun _ _ => trivial⟩
    show ChangesOnly name s (MemoryStore.delete name key s').2
    cases hp : s'.partition name with
    | error e =>
      rw [delete_run_of_error hp]
      exact h
    | ok p =>
      rw [delete_run hp]
      exact h.setPartition _
  merge key value _ := by
    intro s' h
    refine ⟨?_, fun _ _ => trivial⟩
    show ChangesOnly name s (MemoryStore.merge name key value s').2
    cases hp : s'.partition name with
    | error e =>
      rw [merge_run_of_error hp]
      exact h.bumped
    | ok p =>
      cases hop : p.operator with
      | none =>
        rw [merge_run_of_no_operator hp hop]
        exact h.bumped
      | some op =>
        rw [merge_run hp hop]
        exact h.bumped.setPartition _

/-- Lists stay lists while another partition changes. -/
theorem ListsOnly.elsewhere {codec : Codec α} {other : String} (h : s.ListsOnly codec other)
    (hchanges : ChangesOnly name s s') (hother : other ≠ name) : s'.ListsOnly codec other := by
  obtain ⟨p, hp, hlists⟩ := h
  obtain ⟨hc, hfound⟩ := partition_eq_ok_iff.1 hp
  refine ⟨p, ?_, hlists.mono hchanges.version⟩
  exact partition_of_found (hchanges.closed.trans hc) ((hchanges.elsewhere other hother).trans hfound)

end MemoryStore

/-! ### Registrations and filters -/

namespace Backend

/-- A list state has the codec that it is registered with. -/
theorem hasState_iff {σ : Type} {b : Backend σ} {info : StateMeta} {d : Descriptor}
    (hfind : b.registry.find? name = some info) (hkind : info.kind = .list) :
    b.HasState name .list d ↔ d = info.codec := by
  constructor
  · rintro ⟨info', hfind', -, rfl⟩
    obtain rfl := Option.some.inj (hfind.symm.trans hfind')
    rfl
  · rintro rfl
    exact ⟨info, hfind, hkind, rfl⟩

/-- Whether there is such a state depends on its registration alone. -/
theorem HasState.congr {σ : Type} {b b' : Backend σ} {kind : StateKind} {d : Descriptor}
    (h : b.HasState name kind d) (heq : b'.registry.find? name = b.registry.find? name) :
    b'.HasState name kind d := by
  obtain ⟨info, hfind, hinfo⟩ := h
  exact ⟨info, heq.trans hfind, hinfo⟩

/-- The other states stay registered while one is recorded. -/
theorem HasState.insert {σ : Type} {b : Backend σ} {other : String} {kind : StateKind}
    {d : Descriptor} (h : b.HasState other kind d) (hother : other ≠ name) (info : StateMeta)
    (store : σ) :
    ({ b with store, registry := b.registry.insert name info } : Backend σ).HasState other kind d :=
  h.congr (by simp [hother])

/-- A registration is refused and changes nothing, or it finds the state, or the state and its
partition are new. -/
theorem register_cases {b : Backend MemoryStore} (hopen : b.store.closed = false)
    (hmissing : b.registry.find? name = none → b.store.partitions.find? name = none)
    (kind : StateKind) (codec : Descriptor) :
    (∃ e, register name kind codec b = (.error e, b)) ∨
      ∃ b', register name kind codec b
          = (.ok (.fresh name b.builder b.config.maxParallelism), b') ∧ name.isEmpty = false ∧
        (b.HasState name kind codec ∧ b' = b ∨
          b.registry.find? name = none ∧ b' = { b with
            store := b.store.setPartition name ⟨operatorFor kind, Table.empty⟩
            registry := b.registry.insert name ⟨name, kind, codec⟩ }) := by
  cases hempty : name.isEmpty with
  | true => exact .inl ⟨_, register_of_empty hempty kind codec⟩
  | false =>
    cases hfind : b.registry.find? name with
    | some info =>
      rcases register_found_cases hempty hfind kind codec with herror | ⟨hkind, hcodec, hrun⟩
      · exact .inl herror
      · exact .inr ⟨b, hrun, rfl, .inl ⟨⟨info, hfind, hkind, hcodec⟩, rfl⟩⟩
    -- a name that is not registered has no partition either, so one is created
    | none =>
      have hnone := hmissing hfind
      have hhas : ¬ Store.has b.store name = true := by
        show ¬ MemoryStore.has b.store name = true
        simp [MemoryStore.has, Table.contains, hnone]
      have hcreate : Store.create name (operatorFor kind) b.store = (.ok (), _) :=
        MemoryStore.create_run hopen hnone (operatorFor kind)
      have hensure : ensurePartition name kind b = (.ok (), { b with
          store := b.store.setPartition name ⟨operatorFor kind, Table.empty⟩ }) := by
        rw [ensurePartition, if_neg hhas]
        exact onStore_run (Call.attempting_of_ok .creatingPartition hcreate)
      refine .inr ⟨_, ?_, rfl, .inr ⟨rfl, rfl⟩⟩
      rw [register_of_missing hempty hfind, Call.bind_of_ok hensure]
      rfl

section

variable {σ ω : Type} [Store σ] {b : Backend σ} {codec : Codec α}

/-- A list state that is registered is reopened with its codec and no other. -/
theorem registerList_isOk_iff {info : StateMeta} (hempty : name.isEmpty = false)
    (hfind : b.registry.find? name = some info) (hkind : info.kind = .list) :
    (∃ h b', registerList name codec b = (.ok h, b')) ↔ codec.descriptor = info.codec := by
  have hregister := register_of_found hempty hfind .list codec.descriptor
  rw [expectKind, if_pos hkind] at hregister
  by_cases hcodec : info.codec = codec.descriptor
  · rw [expectCodec, if_pos hcodec] at hregister
    exact ⟨fun _ => hcodec.symm, fun _ => ⟨_, _, Call.bind_of_ok hregister _⟩⟩
  · rw [expectCodec, if_neg hcodec] at hregister
    refine ⟨?_, fun h => absurd h.symm hcodec⟩
    rintro ⟨h, b', hrun⟩
    rw [registerList, Call.bind_of_error hregister] at hrun
    cases (Prod.mk.inj hrun).1

/-- A value state is registered as its name and descriptor are. -/
theorem after_registerValue (name : String) (codec : Codec α) (b : Backend σ) :
    (registerValue name codec b).2 = (register name .value codec.descriptor b).2 := by
  rcases hrun : register name .value codec.descriptor b with ⟨e | context, b'⟩
  · rw [registerValue, Call.bind_of_error hrun]
  · rw [registerValue, Call.bind_of_ok hrun]
    rfl

omit [Store σ] in
/-- There is a filter for a list state that is registered with the codec. -/
theorem listFilter_eq_ok_iff {t : ElementTransformer α} {f : Filter ω} :
    b.listFilter name codec t = .ok f ↔ b.HasState name .list codec.descriptor ∧
      f = .ofFunction (transformName codec) (transformList codec t) := by
  unfold listFilter Backend.info HasState
  cases hfind : b.registry.find? name with
  | none => simp [bind, Except.bind]
  | some info =>
    by_cases hkind : info.kind = .list
    · by_cases hcodec : info.codec = codec.descriptor
      · simp [bind, Except.bind, pure, Except.pure, expectKind, expectCodec, hkind, hcodec, eq_comm]
      · simp [bind, Except.bind, expectKind, expectCodec, hkind, hcodec]
    · simp [bind, Except.bind, expectKind, hkind]

end

end Backend

/-! ### Transformed lists -/

/-- A transformed list is a list, if any of it is left. -/
theorem ElementTransformer.keeps_writtenList {codec : Codec α} (hc : codec.Conforming)
    (t : ElementTransformer α) {value value' : Bytes} (h : WrittenList codec value)
    (ht : transformList codec t (some value) = .ok (some value')) : WrittenList codec value' := by
  obtain ⟨xs, -, hencode⟩ := h
  -- under either strategy what is left is written as the elements that stay
  have hlist : ∃ ys, transformList codec t (some value)
      = if ys = [] then .ok none else (encodeList codec ys).map some := by
    cases hstrategy : t.strategy with
    | transformAll => exact ⟨_, hc.transformList_encodeList hstrategy hencode⟩
    | stopOnFirstIncluded => exact ⟨_, hc.transformList_encodeList_of_stop hstrategy hencode⟩
  obtain ⟨ys, hys⟩ := hlist
  rw [hys] at ht
  split at ht
  · cases ht
  · case isFalse hne =>
    cases hencode' : encodeList codec ys with
    | error e =>
      rw [hencode'] at ht
      cases ht
    | ok bs =>
      rw [hencode'] at ht
      obtain rfl : bs = value' := Option.some.inj (Except.ok.inj ht)
      exact ⟨ys, hne, hencode'⟩

/-! ### Upgrades -/

namespace MemoryStore

/-- Writing lists keeps what every put keeps. -/
theorem keeps_writeAll {P : MemoryStore → Prop}
    (hput : ∀ key value, Call.Keeps P (Store.put name key value) fun _ => True)
    (entries : List (Bytes × Bytes)) :
    Call.Keeps P (Backend.writeAll name entries) fun _ => True := by
  induction entries with
  | nil => exact .answer trivial
  | cons entry entries ih =>
    exact ((hput entry.1 entry.2).attempting _).bind fun _ _ => ih

/-- Whether there is a partition that merges as lists do, if it merges. -/
def ForLists (name : String) (s : MemoryStore) : Prop :=
  ∃ p, s.partition name = .ok p ∧ (∀ op, p.operator = some op → op = .stringAppend delimiter) ∧
    p.Sound s.nextVersion

/-- A put changes neither the way of merging nor the invariant. -/
theorem keeps_put_forLists (key value : Bytes) :
    Call.Keeps (ForLists name) (Store.put name key value) fun _ => True := by
  rintro s ⟨p, hp, hop, hsound⟩
  rw [show Store.put name key value s = _ from put_run hp key value]
  have hc := (partition_eq_ok_iff.1 hp).1
  refine ⟨⟨p.put key value s.nextVersion, ?_, hop, hsound.put key value⟩, fun _ _ => trivial⟩
  exact partition_of_found hc (by simp)

/-- Lists in another codec, put under every key that has a value, are all that is left. -/
theorem Overwritten.listsOnly {prior : Codec α} {new : Codec β} {s s' : MemoryStore}
    {p : Partition} {entries : List (Bytes × Bytes)} (hp : s.partition name = .ok p)
    (hlists : p.ListsOnly prior s.nextVersion) (hover : Overwritten name entries s s')
    (hafter : s'.ForLists name) (hkeys : entries.map (·.1) = p.resolved.map (·.1))
    (hentries : ∀ entry ∈ entries, WrittenList new entry.2) : s'.ListsOnly new name := by
  obtain ⟨p', hp', hop, hsound⟩ := hafter
  refine ⟨p', hp', hop, hsound, ?_⟩
  intro key value hvalue
  rw [← value?_of_partition hp'] at hvalue
  by_cases hkey : key ∈ entries.map (·.1)
  · obtain ⟨⟨_, value'⟩, hmem, rfl⟩ := List.mem_map.1 hkey
    obtain ⟨version, hentry⟩ := hover.put _ _ hmem
    rw [value?_of_entryAt hentry] at hvalue
    obtain rfl := Option.some.inj hvalue
    exact hentries _ hmem
  · -- a key that was not written had no value before, and so it has none
    have hnone : s.value? name key = none := by
      rw [hkeys, mem_keys_resolved_iff hp] at hkey
      simpa using hkey
    have hentry := entryAt_of_no_value hp hlists.sound hnone
    rw [← hover.kept key hkey] at hentry
    rw [value?_of_no_entry hentry] at hvalue
    cases hvalue

end MemoryStore

namespace Backend

variable {prior : Codec α}

/-- A list that is migrated becomes a list. -/
theorem writtenList_of_migrateEntry (hc : prior.Conforming) {new : Codec β}
    (hnew : new.Appending) {convert : ElementMigration α β} {entry entry' : Bytes × Bytes}
    (h : WrittenList prior entry.2) (hrun : migrateEntry prior new convert entry = .ok entry') :
    WrittenList new entry'.2 := by
  obtain ⟨xs, hxs, hencode⟩ := h
  obtain ⟨-, count, hlist⟩ := migrateEntry_eq_ok_iff.1 hrun
  by_cases hmigrates : ∀ x ∈ xs, Migrates new convert x
  · obtain ⟨ys, value, hys, hvalue⟩ := exists_converted hnew hmigrates
    rw [hc.migrateList_encodeList hencode hys hvalue] at hlist
    obtain rfl : value = entry'.2 := (Prod.mk.inj hlist).2
    exact ⟨ys, ne_nil_of_mapM_eq_ok hys hxs, hvalue⟩
  · obtain ⟨_, _, _, _, _, _, herror⟩ := hc.migrateList_encodeList_of_failure hnew hencode hmigrates
    rw [herror] at hlist
    cases hlist

/-- An upgrade of lists is refused and changes nothing, or leaves lists in the new codec, which is
registered then. -/
theorem upgradeList_listsOnly {b : Backend MemoryStore} (hc : prior.Conforming)
    (hlists : b.HasState name .list prior.descriptor → b.store.ListsOnly prior name)
    {new : Codec β} (hnew : new.Appending) (convert : ElementMigration α β) :
    (∃ e, upgradeList name prior new convert b = (.error e, b)) ∨
      ∃ count s', upgradeList name prior new convert b = (.ok count, { b with
          store := s'
          registry := b.registry.insert name ⟨name, .list, new.descriptor⟩ }) ∧
        b.HasState name .list prior.descriptor ∧ s'.ListsOnly new name ∧
        MemoryStore.ChangesOnly name b.store s' := by
  rcases hasState_or_unfit name prior.descriptor b with hstate | ⟨e, he⟩
  · obtain ⟨p, hp, hprior⟩ := hlists hstate
    have hscan : Store.scan name b.store = (.ok p.resolved, b.store) := MemoryStore.scan_run hp
    rw [upgradeList_of_hasState hstate]
    cases hmigrate : migrateAll prior new convert p.resolved with
    | error e => exact .inl ⟨e, rewriteLists_of_migrate_error hscan hmigrate⟩
    | ok migrated =>
      have hkeys := keys_of_migrateAll hmigrate
      obtain ⟨s', hwrite, hover⟩ :=
        MemoryStore.writeAll_run hp (hkeys ▸ MemoryStore.nodup_keys_resolved p)
      -- every put is one of these changes, and none changes what the partition is good for
      have hchanges := (MemoryStore.keeps_writeAll
        (fun key value => (MemoryStore.guarded_changesOnly name b.store).put key value trivial)
        migrated b.store (MemoryStore.ChangesOnly.refl name b.store)).1
      have hafter := (MemoryStore.keeps_writeAll MemoryStore.keeps_put_forLists
        migrated b.store ⟨p, hp, hprior.operator, hprior.sound⟩).1
      rw [hwrite] at hchanges hafter
      -- every value was a list in the prior codec, so what it was migrated to is one in the new
      -- codec
      have hentries : ∀ entry ∈ migrated, WrittenList new entry.2 := by
        intro entry' hmem
        rw [migrateAll_eq_mapM] at hmigrate
        obtain ⟨entry, hentry, hrun⟩ := exists_of_mem_mapM_eq_ok hmigrate hmem
        have hvalue := hprior.lists _ _ (Partition.mem_resolved_iff.1 hentry)
        exact writtenList_of_migrateEntry hc hnew hvalue hrun
      exact .inr ⟨_, s', rewriteLists_of_write hscan hmigrate hwrite, hstate,
        hover.listsOnly hp hprior hafter hkeys hentries, hchanges⟩
  · exact .inl ⟨e, upgradeList_of_unfit he⟩

end Backend

end AppendLists
