import AppendLists.Codec.Fixed
import AppendLists.Proofs.Backend.Migrating
import AppendLists.Proofs.Log.TornPass

namespace AppendLists

/-!
# Upgrades that fail

An upgrade migrates every list of a state before it writes the first one, so a migration that fails
leaves no trace. Writing may fail as well, because a migrated list can exceed the entry limit of the
log. Then the lists written before it stay as they are, in the new codec, while the state stays
registered with the prior one.

* `LogStore.accepted`: the lists up to the first that is refused;
* `LogStore.Within.writeAll`: writing lists writes these, and fails if they are not all;
* `Backend.upgradeList_cases`: all that an upgrade can come to;
* `Backend.failed_upgrade`: what a failed upgrade leaves;
* `Backend.failed_upgrade_leaves_migrated_list`: an upgrade that fails at its second list.
-/

variable {α β : Type}

/-! ### Writing several lists -/

namespace MemoryStore

variable {name : String} {c c' : Contents} {op : Option MergeOperator}
  {entries : List (Bytes × Bytes)}

/-- Putting a listing of values, no key twice, makes them the values of their keys. -/
theorem effectAll_puts_listing (hop : c.operator name = some op)
    (hsorted : entries.Pairwise fun p q => p.1 < q.1)
    (h : Mutation.effectAll (puts name entries) c = .ok c') :
    c'.operator = c.operator ∧ ∀ p ∈ entries, c'.value name p.1 = some p.2 := by
  have hfound : ∀ k v, (k, v) ∈ entries → Table.lookup k entries = some v :=
    fun k v hmem => Table.lookup_of_mem hsorted hmem
  obtain ⟨c'', hall, hoperator, hvalue⟩ := effectAll_puts hop hfound
  obtain rfl := Except.ok.inj (h.symm.trans hall)
  refine ⟨hoperator, ?_⟩
  intro p hp
  rw [hvalue, if_pos ⟨rfl, List.mem_map.2 ⟨p, hp, rfl⟩⟩]
  exact hfound p.1 p.2 hp

/-- Values that are put make no difference if and only if the keys had them before. -/
theorem effectAll_puts_self_iff (hop : c.operator name = some op)
    (hsorted : entries.Pairwise fun p q => p.1 < q.1)
    (h : Mutation.effectAll (puts name entries) c = .ok c') :
    c' = c ↔ ∀ p ∈ entries, c.value name p.1 = some p.2 := by
  constructor
  · rintro rfl
    exact (effectAll_puts_listing hop hsorted h).2
  · intro hsame
    obtain ⟨c'', hall, hoperator, hvalue⟩ :=
      effectAll_puts hop fun k v hmem => hsame (k, v) hmem
    obtain rfl := Except.ok.inj (h.symm.trans hall)
    refine Contents.ext hoperator ?_
    funext name' key
    rw [hvalue]
    split
    · case isTrue hkey => rw [hkey.1]
    · rfl

end MemoryStore

namespace LogStore

/-- The pairs before the first whose entry is refused, when entries are numbered from `seq` on. -/
def accepted (limit : Nat) (name : String) : Nat → List (Bytes × Bytes) → List (Bytes × Bytes)
  | _, [] => []
  | seq, (key, value) :: entries =>
    match LogEntry.frame limit ⟨seq, .put name key value⟩ with
    | .ok _ => (key, value) :: accepted limit name (seq + 1) entries
    | .error _ => []

theorem accepted_sublist (limit : Nat) (name : String) (seq : Nat) (entries : List (Bytes × Bytes)) :
    (accepted limit name seq entries).Sublist entries := by
  induction entries generalizing seq with
  | nil => exact List.Sublist.refl []
  | cons entry entries ih =>
    rw [accepted]
    split
    · exact (ih (seq + 1)).cons_cons _
    · exact List.nil_sublist _

variable {s s' : LogStore} {ms : List Mutation} {name : String} {n : Nat}

/-- A put into a partition succeeds if its entry is framed, and leaves no trace otherwise. -/
theorem Within.put (h : s.Within ms n) {op : Option MergeOperator}
    (hop : s.memory.contents.operator name = some op) (key value : Bytes) :
    (∃ e, LogEntry.frame s.config.maxEntrySize ⟨s.nextSeq, .put name key value⟩ = .error e ∧
        Store.put name key value s = (.error e, s)) ∨
      ∃ s' bs, LogEntry.frame s.config.maxEntrySize ⟨s.nextSeq, .put name key value⟩ = .ok bs ∧
        Store.put name key value s = (.ok (), s') ∧
        s'.Within (ms ++ [.put name key value]) (n + 1) ∧ s'.config = s.config ∧
        s'.nextSeq = s.nextSeq + 1 ∧
        s'.memory.contents = s.memory.contents.setValue name key (some value) := by
  have hput : Store.put name key value s = LogStore.logThenApply (.put name key value) s := rfl
  have heffect : (Mutation.put name key value).effect s.memory.contents
      = .ok (s.memory.contents.setValue name key (some value)) := by
    simp only [Mutation.effect, hop]
  rw [hput]
  rcases logThenApply_run h.durable.opened (.put name key value) with
    ⟨e, hrun, hrefused⟩ | ⟨s', bs, hrun, hframe, -, hnext, happly, -⟩
  · -- a put into a partition that is there is refused for its length only
    rw [heffect] at hrefused
    exact .inl ⟨e, hrefused.resolve_left (by simp), hrun⟩
  · rcases h.logThenApply (.put name key value) with ⟨e, hrun'⟩ | ⟨s'', hrun', hwithin, -, hconfig⟩
    · rw [hrun'] at hrun
      cases hrun
    · obtain rfl : s'' = s' := (Prod.mk.inj (hrun'.symm.trans hrun)).2
      have hcontents := (Mutation.effect_of_apply h.durable.opened happly).1
      rw [heffect] at hcontents
      exact .inr ⟨s'', bs, hframe, hrun', hwithin, hconfig, hnext,
        (Except.ok.inj hcontents).symm⟩

/-- Writing pairs in turn writes those that are accepted. It succeeds, or the error is that of a
write. -/
theorem Within.writeAll (h : s.Within ms n) {op : Option MergeOperator}
    (hop : s.memory.contents.operator name = some op) (entries : List (Bytes × Bytes)) :
    ∃ ms' r s', Backend.writeAll name entries s = (r, s') ∧
      s'.Within ms' (n + entries.length) ∧ s'.config = s.config ∧
      Mutation.effectAll (MemoryStore.puts name
          (accepted s.config.maxEntrySize name s.nextSeq entries)) s.memory.contents
        = .ok s'.memory.contents ∧
      ∀ e, r = .error e → ∃ cause, e = .access .writingMigrated cause := by
  induction entries generalizing s ms n with
  | nil => exact ⟨ms, _, s, rfl, h, rfl, rfl, nofun⟩
  | cons entry entries ih =>
    obtain ⟨key, value⟩ := entry
    rw [Backend.writeAll, accepted]
    rcases h.put hop key value with
      ⟨e, hframe, hput⟩ | ⟨s₁, bs, hframe, hput, hwithin, hconfig, hnext, hcontents⟩
    · -- -- a refused pair ends the writing, and what was written before it stays
      have hfailed := Call.attempting_of_error .writingMigrated hput
      rw [Call.bind_of_error hfailed, hframe]
      refine ⟨ms, _, s, rfl, h.mono (Nat.le_add_right n _), rfl, rfl, ?_⟩
      intro e' he'
      exact ⟨e, (Except.error.inj he').symm⟩
    · have hop₁ : s₁.memory.contents.operator name = some op := by rw [hcontents]; exact hop
      obtain ⟨ms', r, s', hrun, hwithin', hconfig', hall, herror⟩ := ih hwithin hop₁
      rw [Call.bind_of_ok (Call.attempting_of_ok .writingMigrated hput), hframe]
      refine ⟨ms', r, s', hrun, ?_, hconfig'.trans hconfig, ?_, herror⟩
      · rw [List.length_cons]
        rwa [Nat.add_assoc, Nat.add_comm 1] at hwithin'
      · -- -- the pairs behind are judged by the number that the store has come to
        rw [hconfig, hnext, hcontents] at hall
        rw [MemoryStore.puts, List.map_cons, Mutation.effectAll]
        simp only [Mutation.effect, hop]
        exact hall

end LogStore

/-! ### Upgrades -/

namespace Backend

variable {prior : Codec α} {new : Codec β} {convert : ElementMigration α β} {name : String}
  {b b' : Backend LogStore}

theorem scan_run {p : Partition} (hp : b.store.memory.partition name = .ok p) :
    Store.scan name b.store = (.ok p.resolved, b.store) := by
  show LogStore.onMemory (MemoryStore.scan name) b.store = _
  simp [LogStore.onMemory, MemoryStore.scan, Call.query, hp, Except.map]

theorem scan_run_of_error {e : StorageError} (hp : b.store.memory.partition name = .error e) :
    Store.scan name b.store = (.error e, b.store) := by
  show LogStore.onMemory (MemoryStore.scan name) b.store = _
  simp [LogStore.onMemory, MemoryStore.scan, Call.query, hp, Except.map]

/-- All that an upgrade can come to: it fails before it writes anything, or what it writes decides. -/
theorem upgradeList_cases (name : String) (prior : Codec α) (new : Codec β)
    (convert : ElementMigration α β) (b : Backend LogStore) :
    (∃ e, upgradeList name prior new convert b = (.error e, b) ∧
        ∀ cause migrated, e = .access .writingMigrated cause →
          migrateAll prior new convert (b.store.memory.listing name) ≠ .ok migrated) ∨
      ∃ p migrated, b.store.memory.partition name = .ok p ∧
        migrateAll prior new convert p.resolved = .ok migrated ∧
        ∀ r s, writeAll name migrated b.store = (r, s) →
          (∀ e, r = .error e →
            upgradeList name prior new convert b = (.error e, { b with store := s })) ∧
          (r = .ok () → (upgradeList name prior new convert b).1 = .ok migrated.length) := by
  rcases hasState_or_unfit name prior.descriptor b with hstate | ⟨e, hunfit⟩
  · rw [upgradeList_of_hasState hstate]
    cases hp : b.store.memory.partition name with
    | error e => exact .inl ⟨_, rewriteLists_of_scan_error (scan_run_of_error hp), nofun⟩
    | ok p =>
      cases hmigrate : migrateAll prior new convert p.resolved with
      | error e =>
        refine .inl ⟨_, rewriteLists_of_migrate_error (scan_run hp) hmigrate, ?_⟩
        rintro cause migrated -
        rw [MemoryStore.listing_of_found (MemoryStore.partition_eq_ok_iff.1 hp).2, hmigrate]
        nofun
      | ok migrated =>
        refine .inr ⟨p, migrated, rfl, hmigrate, ?_⟩
        intro r s hwrite
        constructor
        · rintro e rfl
          exact rewriteLists_of_write_error (scan_run hp) hmigrate hwrite
        · rintro rfl
          rw [rewriteLists_of_write (scan_run hp) hmigrate hwrite]
  · refine .inl ⟨e, upgradeList_of_unfit hunfit, ?_⟩
    rintro cause migrated rfl
    cases hunfit

/-- **What a failed upgrade leaves.** After an upgrade that failed, every state is registered as
before, and a store that is shut and opened again answers as the one that stayed open. It answers as
before the upgrade if and only if the upgrade failed before its first write, or the migrated lists
that were written before a refused one were the same bytes as before. -/
theorem failed_upgrade {config : StoreConfig} (hvalid : config.validate = .ok ()) {n : Nat}
    (hstore : LogStore.Reached config n b.store)
    (hn : n + (b.store.memory.listing name).length < 0x10000000000000000) {e : StateError}
    (hfail : upgradeList name prior new convert b = (.error e, b')) :
    b'.registry = b.registry ∧
      (∃ s, (LogStore.openVolume config (some b'.store.shut)).1 = .ok s ∧
        s.AnswersLike b'.store) ∧
      (b'.store.AnswersLike b.store ↔ ∀ cause migrated, e = .access .writingMigrated cause →
        migrateAll prior new convert (b.store.memory.listing name) = .ok migrated →
          ∀ p ∈ LogStore.accepted config.maxEntrySize name b.store.nextSeq migrated,
            b.store.memory.value? name p.1 = some p.2) := by
  obtain ⟨ms, hwithin, rfl⟩ := hstore.within hvalid (by omega)
  rcases upgradeList_cases name prior new convert b with
    ⟨e', hearly, hcause⟩ | ⟨p, migrated, hp, hmigrate, hdecide⟩
  · -- nothing was written
    obtain ⟨he, rfl⟩ := Prod.mk.inj (hearly.symm.trans hfail)
    obtain rfl := Except.error.inj he
    refine ⟨rfl, hwithin.reopen_answersLike hvalid (by omega), ?_⟩
    constructor
    · intro _ cause migrated herror hmigrate
      exact absurd hmigrate (hcause cause migrated herror)
    · intro _
      exact LogStore.answersLike_of_contents rfl rfl
  · have hfound := (MemoryStore.partition_eq_ok_iff.1 hp).2
    rw [MemoryStore.listing_of_found hfound] at hn ⊢
    have hop : b.store.memory.contents.operator name = some p.operator := by
      simp [MemoryStore.contents, hfound]
    have hkeys := keys_of_migrateAll hmigrate
    have hlength : migrated.length = p.resolved.length := by
      have hmap := congrArg List.length hkeys
      rwa [List.length_map, List.length_map] at hmap
    obtain ⟨ms', r, s, hwrite, hwithin', hconfig, hall, hcause⟩ := hwithin.writeAll hop migrated
    obtain ⟨hwritten, hdone⟩ := hdecide r s hwrite
    cases hr : r with
    | ok u =>
      -- all lists were written, so the upgrade did not fail
      have hok := hdone hr
      rw [hfail] at hok
      cases hok
    | error e' =>
      obtain ⟨he, rfl⟩ := Prod.mk.inj ((hwritten e' hr).symm.trans hfail)
      obtain rfl := Except.error.inj he
      obtain ⟨cause, rfl⟩ := hcause e' hr
      have hreopen := hwithin'.reopen_answersLike (by rw [hconfig, hvalid]) (by omega)
      rw [hconfig] at hreopen
      refine ⟨rfl, hreopen, ?_⟩
      -- the keys are those of a listing, so no list is written twice
      have hsorted : (LogStore.accepted b.store.config.maxEntrySize name b.store.nextSeq
          migrated).Pairwise fun p q => p.1 < q.1 := by
        have hlisted : (p.resolved.map (·.1)).Pairwise (· < ·) :=
          List.pairwise_map.2 (p.entries.filterMap p.resolve).ordered
        rw [← hkeys] at hlisted
        exact (List.pairwise_map.1 hlisted).sublist (LogStore.accepted_sublist ..)
      have hsame := MemoryStore.effectAll_puts_self_iff hop hsorted hall
      have hoperator := (MemoryStore.effectAll_puts_listing hop hsorted hall).1
      rw [LogStore.answersLike_iff_contents hwithin'.durable.opened hwithin.durable.opened hoperator,
        hsame]
      constructor
      · intro h _ migrated' _ hmigrate'
        obtain rfl := Except.ok.inj (hmigrate.symm.trans hmigrate')
        exact h
      · intro h
        exact h cause migrated rfl hmigrate

/-- A list of one element and one of three, which fits its entry with eight bytes to each element and
not with sixteen. The upgrade fails at the second list and leaves the first one migrated. -/
theorem failed_upgrade_leaves_migrated_list :
    let config : StoreConfig := ⟨"state", 2, true, 64⟩
    let key₁ : Bytes := [0x1B, 0, 0, 0, 1, 1]
    let key₂ : Bytes := [0x21, 0, 0, 0, 1, 2]
    let element (n : Nat) : Bytes := Bytes.ofNatBE 8 n
    let changes : List Mutation :=
      [.create "s" (some (.stringAppend 0x2C)), .merge "s" key₁ (element 7),
        .merge "s" key₂ (element 1 ++ 0x2C :: element 2 ++ 0x2C :: element 3)]
    let store : LogStore := changes.foldl (fun s m => (LogStore.logThenApply m s).2)
      (LogStore.onFile config logHeader MemoryStore.empty 0 false)
    let b : Backend LogStore := ⟨store, KeyBuilder.composite 128, .default,
      Table.empty.insert "s" ⟨"s", .list, Codec.u64.descriptor⟩⟩
    config.validate = .ok () ∧ LogStore.Reached config 3 store ∧
      ∃ e b', upgradeList "s" Codec.u64 Codec.u64.stamped (.enableExpiry 0) b = (.error e, b') ∧
        b'.registry = b.registry ∧ ¬ b'.store.AnswersLike b.store ∧
        ∃ s, (LogStore.openVolume config (some b'.store.shut)).1 = .ok s ∧
          s.AnswersLike b'.store := by
  intro config key₁ key₂ element changes store b
  have hvalid : config.validate = .ok () := rfl
  have hstore : LogStore.Reached config 3 store :=
    (((LogStore.Reached.opened rfl).change _).change _).change _
  have hbacked : LogStore.Reached config 3 b.store := by
    dsimp only [b]
    exact hstore
  have hn : 3 + (b.store.memory.listing "s").length < 0x10000000000000000 := by decide +kernel
  have hbefore : b.store.memory.value? "s" key₁ = some (element 7) := by decide +kernel
  -- both lists are migrated, but only the first one is written
  let migrated : List (Bytes × Bytes) := [(key₁, element 0 ++ element 7),
    (key₂, element 0 ++ element 1 ++ 0x2C :: (element 0 ++ element 2)
      ++ 0x2C :: (element 0 ++ element 3))]
  have hwriting : (match (writeAll "s" migrated b.store).1 with
      | .error (.access .writingMigrated _) => true
      | _ => false) = true := by decide +kernel
  have hlisting : b.store.memory.listing "s"
      = [(key₁, element 7), (key₂, element 1 ++ 0x2C :: element 2 ++ 0x2C :: element 3)] := by
    decide +kernel
  have hmigrate : migrateAll Codec.u64 Codec.u64.stamped (.enableExpiry 0)
      (b.store.memory.listing "s") = .ok migrated := by
    rw [hlisting]
    cbv
  have hfirst : (LogStore.accepted config.maxEntrySize "s" b.store.nextSeq migrated).head?
      = some (key₁, element 0 ++ element 7) := by decide +kernel
  have hstate : b.HasState "s" .list Codec.u64.descriptor := ⟨_, rfl, rfl, rfl⟩
  have hfound : (b.store.memory.partition "s").isOk = true := by decide +kernel
  -- from here on it does not matter how the store came to hold the two lists
  clear_value b
  obtain ⟨p, hp⟩ : ∃ p, b.store.memory.partition "s" = .ok p := by
    cases hp : b.store.memory.partition "s" with
    | error e =>
      rw [hp] at hfound
      cases hfound
    | ok p => exact ⟨p, rfl⟩
  have hresolved : migrateAll Codec.u64 Codec.u64.stamped (.enableExpiry 0) p.resolved
      = .ok migrated := by
    rwa [MemoryStore.listing_of_found (MemoryStore.partition_eq_ok_iff.1 hp).2] at hmigrate
  rcases hwrite : writeAll "s" migrated b.store with ⟨r, s⟩
  rw [hwrite] at hwriting
  split at hwriting
  · case h_1 cause hr =>
    obtain rfl : r = _ := hr
    have hrun : upgradeList "s" Codec.u64 Codec.u64.stamped (.enableExpiry 0) b
        = (.error (.access .writingMigrated cause), { b with store := s }) := by
      rw [upgradeList_of_hasState hstate]
      exact rewriteLists_of_write_error (scan_run hp) hresolved hwrite
    obtain ⟨hregistry, hreopen, hlive⟩ := failed_upgrade hvalid hbacked hn hrun
    refine ⟨hvalid, hstore, _, _, hrun, hregistry, ?_, hreopen⟩
    intro hsame
    have hafter := hlive.1 hsame cause migrated rfl hmigrate _ (List.mem_of_head? hfirst)
    rw [hbefore] at hafter
    exact absurd (Option.some.inj hafter) (by decide)
  · cases hwriting

end Backend

end AppendLists
