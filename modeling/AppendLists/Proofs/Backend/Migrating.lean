import AppendLists.Backend.Basic
import AppendLists.Proofs.Call
import AppendLists.Proofs.ListFormat.Migration

namespace AppendLists

/-!
# The course of an upgrade

An upgrade goes through its stages in turn: the registered state is checked, its lists are read, all
of them are migrated, and only then are they written and the new codec is registered. The lemmas
here say for every store what the upgrade comes to from what its stages come to.

* `Backend.HasState`, `Backend.Unfit`: what the check asks for, and how it fails;
* `Backend.migrateAll_eq_mapM`, `keys_of_migrateAll`: several lists migrated;
* `Backend.upgradeList_of_unfit`, `upgradeList_of_hasState`: the checks;
* `Backend.rewriteLists_of_scan_error`, `rewriteLists_of_migrate_error`,
  `rewriteLists_of_write_error`, `rewriteLists_of_write`: the stages behind them.
-/

variable {α β σ : Type} {prior : Codec α} {new : Codec β} {convert : ElementMigration α β}
  {name : String}

/-! ### Migrating several lists -/

namespace Backend

/-- A key with its list migrated. -/
def migrateEntry (prior : Codec α) (new : Codec β) (convert : ElementMigration α β)
    (entry : Bytes × Bytes) : Except StateError (Bytes × Bytes) :=
  let (result, migrated) := migrateList prior new convert entry.2 []
  result.map fun _ => (entry.1, migrated)

/-- A value is migrated under its key. -/
theorem migrateEntry_eq_ok_iff {entry entry' : Bytes × Bytes} :
    migrateEntry prior new convert entry = .ok entry'
      ↔ entry'.1 = entry.1 ∧
        ∃ count, migrateList prior new convert entry.2 [] = (.ok count, entry'.2) := by
  unfold migrateEntry
  rcases migrateList prior new convert entry.2 [] with ⟨e | count, out⟩
  · simp [Except.map]
  · simp [Except.map, Prod.ext_iff, eq_comm]

/-- It fails as its list does. -/
theorem migrateEntry_eq_error_iff {entry : Bytes × Bytes} {e : StateError} :
    migrateEntry prior new convert entry = .error e
      ↔ (migrateList prior new convert entry.2 []).1 = .error e := by
  unfold migrateEntry
  rcases migrateList prior new convert entry.2 [] with ⟨e' | count, out⟩ <;> simp [Except.map]

/-- Lists are migrated one by one. -/
theorem migrateAll_eq_mapM (entries : List (Bytes × Bytes)) :
    migrateAll prior new convert entries = entries.mapM (migrateEntry prior new convert) := by
  induction entries with
  | nil => rfl
  | cons entry entries ih =>
    rw [migrateAll, List.mapM_cons, ih, migrateEntry]
    rcases migrateList prior new convert entry.2 [] with ⟨e | count, out⟩ <;> rfl

/-- Migrated lists have the keys they had. -/
theorem keys_of_migrateAll {entries migrated : List (Bytes × Bytes)}
    (h : migrateAll prior new convert entries = .ok migrated) :
    migrated.map (·.1) = entries.map (·.1) := by
  rw [migrateAll_eq_mapM] at h
  induction entries generalizing migrated with
  | nil =>
    obtain rfl : [] = migrated := Except.ok.inj h
    rfl
  | cons entry entries ih =>
    obtain ⟨entry', rest, hentry, hrest, rfl⟩ := mapM_cons_eq_ok_iff.1 h
    rw [List.map_cons, List.map_cons, ih hrest, (migrateEntry_eq_ok_iff.1 hentry).1]

/-! ### The checks -/

/-- Whether a state is registered with a kind and a codec. -/
def HasState (name : String) (kind : StateKind) (codec : Descriptor) (b : Backend σ) : Prop :=
  ∃ info, b.registry.find? name = some info ∧ info.kind = kind ∧ info.codec = codec

/-- The error of a call that asks for a list state with a codec, when there is none. -/
inductive Unfit (name : String) (codec : Descriptor) (b : Backend σ) : StateError → Prop where
  /-- Nothing has the name. -/
  | unregistered (h : b.registry.find? name = none) : Unfit name codec b (.stateNotRegistered name)
  /-- A state of another kind has the name. -/
  | kind {info : StateMeta} (h : b.registry.find? name = some info) (hkind : info.kind ≠ .list) :
      Unfit name codec b (.kindMismatch info.kind .list)
  /-- The lists of that name have another codec. -/
  | codec {info : StateMeta} (h : b.registry.find? name = some info) (hkind : info.kind = .list)
      (hcodec : info.codec ≠ codec) :
      Unfit name codec b (.incompatibleSchema info.name info.codec codec)

/-- There is a list state with the codec, or a reason to refuse. -/
theorem hasState_or_unfit (name : String) (codec : Descriptor) (b : Backend σ) :
    b.HasState name .list codec ∨ ∃ e, b.Unfit name codec e := by
  cases hfind : b.registry.find? name with
  | none => exact .inr ⟨_, .unregistered hfind⟩
  | some info =>
    by_cases hkind : info.kind = .list
    · by_cases hcodec : info.codec = codec
      · exact .inl ⟨info, hfind, hkind, hcodec⟩
      · exact .inr ⟨_, .codec hfind hkind hcodec⟩
    · exact .inr ⟨_, .kind hfind hkind⟩

/-! ### The stages -/

/-- A call on the store leaves the rest of the backend alone. -/
theorem onStore_run {ε γ : Type} {call : Call σ ε γ} {b : Backend σ} {r : Except ε γ} {s : σ}
    (h : call b.store = (r, s)) : onStore call b = (r, { b with store := s }) := by
  rw [onStore, h]

variable [Store σ] {b : Backend σ}

/-- The stages behind the checks. -/
def rewriteLists (name : String) (prior : Codec α) (new : Codec β)
    (convert : ElementMigration α β) : Call (Backend σ) StateError Nat := do
  let entries ← onStore ((Store.scan name).attempting .scanningForMigration)
  let migrated ← Call.ofExcept (migrateAll prior new convert entries)
  onStore (writeAll name migrated)
  record ⟨name, .list, new.descriptor⟩
  return migrated.length

/-- An upgrade that does not fit the registered state changes nothing. -/
theorem upgradeList_of_unfit {e : StateError} (h : b.Unfit name prior.descriptor e) :
    upgradeList name prior new convert b = (.error e, b) := by
  cases h with
  | unregistered h =>
    exact Call.bind_of_error (by rw [Call.query, info, h]) _
  | kind h hkind =>
    refine (Call.bind_of_ok (by rw [Call.query, info, h]) _).trans ?_
    rw [expectKind, if_neg hkind]
    rfl
  | codec h hkind hcodec =>
    refine (Call.bind_of_ok (by rw [Call.query, info, h]) _).trans ?_
    rw [expectKind, if_pos hkind, expectCodec, if_neg hcodec]
    rfl

/-- One that fits rewrites the lists. -/
theorem upgradeList_of_hasState (h : b.HasState name .list prior.descriptor) :
    upgradeList name prior new convert b = rewriteLists name prior new convert b := by
  obtain ⟨info, hfind, hkind, hcodec⟩ := h
  refine (Call.bind_of_ok (by rw [Call.query, Backend.info, hfind]) _).trans ?_
  rw [expectKind, if_pos hkind, expectCodec, if_pos hcodec]
  rfl

/-- Lists that cannot be listed are not rewritten. -/
theorem rewriteLists_of_scan_error {e : StorageError}
    (hscan : Store.scan name b.store = (.error e, b.store)) :
    rewriteLists name prior new convert b = (.error (.access .scanningForMigration e), b) := by
  apply Call.bind_of_error
  rw [onStore_run (by rw [Call.attempting, Call.mapError, hscan])]

variable {entries migrated : List (Bytes × Bytes)}

/-- Listed ones are migrated before anything is written. -/
theorem rewriteLists_of_scan (hscan : Store.scan name b.store = (.ok entries, b.store)) :
    rewriteLists name prior new convert b
      = (do
          let migrated ← Call.ofExcept (migrateAll prior new convert entries)
          onStore (writeAll name migrated)
          record ⟨name, .list, new.descriptor⟩
          return migrated.length : Call (Backend σ) StateError Nat) b := by
  apply Call.bind_of_ok
  rw [onStore_run (Call.attempting_of_ok .scanningForMigration hscan)]

/-- A migration that fails is the end of it, before anything is written. -/
theorem rewriteLists_of_migrate_error (hscan : Store.scan name b.store = (.ok entries, b.store))
    {e : StateError} (hmigrate : migrateAll prior new convert entries = .error e) :
    rewriteLists name prior new convert b = (.error e, b) := by
  rw [rewriteLists_of_scan hscan, hmigrate]
  rfl

/-- What was written before a write failed stays, and the registry too. -/
theorem rewriteLists_of_write_error (hscan : Store.scan name b.store = (.ok entries, b.store))
    (hmigrate : migrateAll prior new convert entries = .ok migrated) {e : StateError} {s : σ}
    (hwrite : writeAll name migrated b.store = (.error e, s)) :
    rewriteLists name prior new convert b = (.error e, { b with store := s }) := by
  rw [rewriteLists_of_scan hscan, hmigrate]
  exact Call.bind_of_error (onStore_run hwrite) _

/-- If all is written, the new codec is recorded. -/
theorem rewriteLists_of_write (hscan : Store.scan name b.store = (.ok entries, b.store))
    (hmigrate : migrateAll prior new convert entries = .ok migrated) {s : σ}
    (hwrite : writeAll name migrated b.store = (.ok (), s)) :
    rewriteLists name prior new convert b
      = (.ok migrated.length, { b with
          store := s
          registry := b.registry.insert name ⟨name, .list, new.descriptor⟩ }) := by
  rw [rewriteLists_of_scan hscan, hmigrate]
  exact Call.bind_of_ok (onStore_run hwrite) _

end Backend

end AppendLists
