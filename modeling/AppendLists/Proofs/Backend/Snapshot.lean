import AppendLists.Proofs.Backend.Registration
import AppendLists.Proofs.Backend.Stable
import AppendLists.Proofs.Json.RoundTrip
import AppendLists.Proofs.Table

namespace AppendLists

/-!
# Snapshots restored

The snapshot of a registry, restored on any backend, gives it the same states, whatever their names
are and whatever was registered there before. Partitions come first: those that are missing are
created, and only then the registry is replaced.

* `StateMeta.ofJson?_toJson`, `Registry.kept_toJson`, `Registry.ofJson?_snapshot`: the document of a
  registry and its text are read back;
* `Backend.Named`, `Backend.Filled`, `Filled.named`: the registries that calls lead to hold each
  state under its own name;
* `ensurePartitions_of_open`: nothing prevents an open store in memory from having partitions;
* `registry_of_restore_error`: errors leave the registry alone;
* `restore_snapshot`: snapshots restored.
-/

/-! ### Documents -/

namespace StateMeta

/-- A kind is known by its tag. -/
theorem kindOfTag?_tag (kind : StateKind) : kindOfTag? kind.tag = some kind := by
  cases kind <;> rfl

/-- A version fits its bits. -/
theorem uint32?_toNat (version : UInt32) :
    Json.uint32? (.int version.toNat) = some version.toNat := by
  have hmin : (0 : Int) ≤ version.toNat := Int.natCast_nonneg _
  have hmax : (version.toNat : Int) < (0x100000000 : Nat) := by exact_mod_cast version.toNat_lt
  rw [Json.uint32?, Json.natBelow?, if_pos ⟨hmin, hmax⟩, Int.toNat_natCast]

/-- A descriptor is read back from its document. -/
theorem codecOfJson?_toJson (codec : Descriptor) :
    codecOfJson? (.object [(some "name", .text codec.name),
      (some "version", .int codec.version.toNat)]) = some codec := by
  have hfields : (Json.object [(some "name", .text codec.name),
      (some "version", .int codec.version.toNat)]).fields? ["name", "version"]
        = some [some (.text codec.name), some (.int codec.version.toNat)] := by
    simp [Json.fields?, Json.membersByName?]
  simp only [codecOfJson?, hfields, uint32?_toNat, Json.text?, Option.bind_eq_bind,
    Option.bind_some, UInt32.ofNat_toNat, Option.pure_def]

/-- A state is read back from its document. -/
theorem ofJson?_toJson (info : StateMeta) : ofJson? info.toJson = some info := by
  have hfields : info.toJson.fields? ["name", "kind", "codec"]
      = some [some (.text info.name), some (.text info.kind.tag),
          some (.object [(some "name", .text info.codec.name),
            (some "version", .int info.codec.version.toNat)])] := by
    simp [toJson, Json.fields?, Json.membersByName?]
  simp only [ofJson?, hfields, Json.text?, kindOfJson?, kindOfTag?_tag, codecOfJson?_toJson,
    Option.bind_eq_bind, Option.bind_some, Option.pure_def]

/-- Every member of a documented state has a name. -/
theorem kept_toJson (info : StateMeta) : info.toJson.Kept := by
  refine .object (by simp) ?_
  simp only [List.forall_mem_cons, List.not_mem_nil, false_implies, implies_true, and_true]
  refine ⟨.text _, .text _, .object (by simp) ?_⟩
  simp only [List.forall_mem_cons, List.not_mem_nil, false_implies, implies_true, and_true]
  exact ⟨.text _, .int _⟩

end StateMeta

namespace Registry

/-- So it is with all of them in a document. -/
theorem kept_toJson (states : List StateMeta) : (toJson states).Kept := by
  refine .object (by simp) ?_
  simp only [List.forall_mem_cons, List.not_mem_nil, false_implies, implies_true, and_true]
  refine ⟨.int _, .array ?_⟩
  intro j hj
  obtain ⟨info, -, rfl⟩ := List.mem_map.1 hj
  exact info.kept_toJson

/-- Documented states are read back, in order. -/
theorem mapM_ofJson? (states : List StateMeta) :
    (states.map StateMeta.toJson).mapM StateMeta.ofJson? = some states := by
  induction states with
  | nil => rfl
  | cons info infos ih =>
    rw [List.map_cons, List.mapM_cons, StateMeta.ofJson?_toJson, ih]
    rfl

/-- The states are read back from the text of their document. -/
theorem ofJson?_snapshot (states : List StateMeta) :
    (Json.parse (Utf8.encode (snapshot states))).bind ofJson? = some (snapshotVersion, states) := by
  have hfields : (toJson states).fields? ["version", "states"]
      = some [some (.int snapshotVersion), some (.array (states.map StateMeta.toJson))] := by
    simp [toJson, Json.fields?, Json.membersByName?]
  have hversion : Json.uint32? (.int snapshotVersion) = some snapshotVersion := rfl
  rw [snapshot, Json.parse_pretty (kept_toJson states), Option.bind_some]
  simp only [ofJson?, hfields, hversion, mapM_ofJson?, Option.bind_eq_bind, Option.bind_some,
    Option.pure_def]

end Registry

namespace Backend

/-! ### Registries -/

variable {σ τ : Type}

/-- Each state is registered under its own name. -/
def Named (b : Backend σ) : Prop :=
  ∀ name info, b.registry.find? name = some info → info.name = name

/-- Names are recorded as they are registered. -/
theorem stable_named : Stable (Named (σ := σ)) where
  store h _ := h
  record h info name info' hfind := by
    rw [Table.find?_insert] at hfind
    split at hfind
    · case isTrue hname =>
      obtain rfl := Option.some.inj hfind
      exact hname.symm
    · exact h name info' hfind
  replace _ infos name info hfind := by
    obtain ⟨info', -, heq⟩ := List.mem_map.1 (Table.mem_of_find?_ofList hfind)
    obtain ⟨rfl, rfl⟩ := Prod.mk.inj heq
    rfl

/-- A registry is made of its states again. -/
theorem Named.ofList_states {b : Backend σ} (h : b.Named) :
    Table.ofList (b.states.map fun info => (info.name, info)) = b.registry := by
  have hpairs : b.states.map (fun info => (info.name, info)) = b.registry.pairs := by
    rw [states, Table.values, List.map_map]
    conv => rhs; rw [← List.map_id b.registry.pairs]
    apply List.map_congr_left
    rintro ⟨name, info⟩ hp
    obtain rfl := h name info (Table.mem_pairs_iff.1 hp)
    rfl
  rw [hpairs, Table.ofList_pairs]

variable [Store σ] [Store τ]

/-- Backends that were opened over a store, after any calls. -/
inductive Filled : Backend σ → Prop where
  /-- It is opened. -/
  | withBuilder {store : σ} {config : BackendConfig} {builder : KeyBuilder} {b : Backend σ}
      (h : withBuilder store config builder = .ok b) : Filled b
  /-- A list state is registered. -/
  | registerList {b : Backend σ} (h : Filled b) {α : Type} (name : String) (codec : Codec α) :
      Filled (registerList name codec b).2
  /-- A value state is registered. -/
  | registerValue {b : Backend σ} (h : Filled b) {α : Type} (name : String) (codec : Codec α) :
      Filled (registerValue name codec b).2
  /-- A list state is upgraded. -/
  | upgradeList {b : Backend σ} (h : Filled b) {α β : Type} (name : String) (prior : Codec α)
      (new : Codec β) (convert : ElementMigration α β) :
      Filled (upgradeList name prior new convert b).2
  /-- A snapshot is restored. -/
  | restore {b : Backend σ} (h : Filled b) (document : Bytes) : Filled (restore document b).2
  /-- A call on the store, by a handle or by others who share it. -/
  | onStore {b : Backend σ} (h : Filled b) {ε α : Type} (call : Call σ ε α) :
      Filled (onStore call b).2

/-- A backend that was filled by calls records every state under its name. -/
theorem Filled.named {b : Backend σ} (h : b.Filled) : b.Named := by
  induction h with
  | @withBuilder store config builder b h =>
    rcases hvalid : config.validate with e | ⟨⟩
    · simp [Backend.withBuilder, hvalid, Except.map] at h
    · obtain rfl : _ = b := by simpa [Backend.withBuilder, hvalid, Except.map] using h
      intro name info hfind
      cases hfind
  | registerList _ name codec ih => exact (stable_named.registerList name codec _ ih).1
  | registerValue _ name codec ih => exact (stable_named.registerValue name codec _ ih).1
  | upgradeList _ name prior new convert ih =>
    exact (stable_named.upgradeList name prior new convert _ ih).1
  | restore _ document ih => exact (stable_named.restore document _ ih).1
  | onStore _ call ih => exact stable_named.store ih _

/-! ### Partitions -/

/-- An open store in memory makes a partition that is missing. -/
theorem ensurePartition_of_open {b : Backend MemoryStore} (hopen : b.store.closed = false)
    (name : String) (kind : StateKind) :
    ∃ s', ensurePartition name kind b = (.ok (), { b with store := s' }) ∧ s'.closed = false := by
  unfold ensurePartition
  split
  · exact ⟨b.store, rfl, hopen⟩
  · case isFalse hname =>
    have hnone : b.store.partitions.find? name = none := by
      have hmissing : b.store.has name = false := Bool.eq_false_iff.2 hname
      simpa [MemoryStore.has, Table.contains] using hmissing
    have hcreate : Store.create name (operatorFor kind) b.store
        = (.ok (), b.store.setPartition name ⟨operatorFor kind, Table.empty⟩) :=
      MemoryStore.create_run hopen hnone _
    refine ⟨b.store.setPartition name ⟨operatorFor kind, Table.empty⟩, ?_, hopen⟩
    simp only [Backend.onStore, Call.attempting, Call.mapError, hcreate]

/-- An open store has or gets every partition that is asked for. -/
theorem ensurePartitions_of_open {b : Backend MemoryStore} (hopen : b.store.closed = false)
    (infos : List StateMeta) :
    ∃ s', ensurePartitions infos b = (.ok (), { b with store := s' }) := by
  induction infos generalizing b with
  | nil => exact ⟨b.store, rfl⟩
  | cons info infos ih =>
    obtain ⟨s₁, hrun, hopen₁⟩ := ensurePartition_of_open hopen info.name info.kind
    obtain ⟨s₂, hrest⟩ := ih (b := { b with store := s₁ }) hopen₁
    exact ⟨s₂, by rw [ensurePartitions, Call.bind_of_ok hrun, hrest]⟩

/-- Lists are merged with the delimiter, and other states not at all. -/
theorem operatorFor_eq (kind : StateKind) :
    operatorFor kind = if kind = .list then some (.stringAppend delimiter) else none := by
  cases kind <;> rfl

/-- Where there is no partition there is no way of merging. -/
theorem operator?_of_missing {s : MemoryStore} {name : String} (h : s.has name = false) :
    s.operator? name = none := by
  have hfind : s.partitions.find? name = none := by
    simpa [MemoryStore.has, Table.contains] using h
  rw [MemoryStore.operator?, hfind]
  rfl

/-! ### Snapshots -/

/-- A document that is not restored leaves the registry alone. -/
theorem registry_of_restore_error {b b' : Backend τ} {document : Bytes}
    {e : StateError} (h : Backend.restore document b = (.error e, b')) :
    b'.registry = b.registry := by
  unfold Backend.restore at h
  cases hread : (Json.parse document).bind Registry.ofJson? with
  -- a document that cannot be read is refused at once
  | none =>
    simp only [hread] at h
    obtain rfl := (Prod.mk.inj h).2
    rfl
  | some result =>
    obtain ⟨version, infos⟩ := result
    simp only [hread] at h
    split at h
    · obtain rfl := (Prod.mk.inj h).2
      rfl
    · -- the registry is not touched before all partitions are there
      have hkeeps := (keeps_ensurePartitions (P := fun b' : Backend τ => b'.registry = b.registry)
        (fun h _ => h) infos b rfl).1
      rcases hrun : ensurePartitions infos b with ⟨e' | ⟨⟩, b₁⟩
      · rw [Call.bind_of_error hrun] at h
        rw [hrun] at hkeeps
        obtain rfl := (Prod.mk.inj h).2
        exact hkeeps
      · rw [Call.bind_of_ok hrun] at h
        cases h

/-- **Snapshots are restored.** The snapshot of a backend after any registrations and upgrades is
restored on every backend over an open store in memory, whatever is registered there: its states are
then those of the snapshot, in the same order. Each of them has a partition; those that are new
append with the delimiter if their state is a list, and have no way of merging otherwise. A document
that cannot be restored, on a backend over a store of any kind, leaves the registry as it was. -/
theorem restore_snapshot {b : Backend σ} (hb : b.Filled) {target : Backend MemoryStore}
    (hopen : target.store.closed = false) :
    (∃ target', Backend.restore (Utf8.encode b.snapshot) target = (.ok (), target') ∧
      target'.states = b.states ∧
      (∀ info ∈ b.states, target'.store.has info.name = true) ∧
      ∀ name, target.store.has name = false → target'.store.has name = true →
        ∃ info ∈ b.states, info.name = name ∧ target'.store.operator? name
          = if info.kind = .list then some (.stringAppend delimiter) else none) ∧
    ∀ (document : Bytes) (other other' : Backend τ) (e : StateError),
      Backend.restore document other = (.error e, other') → other'.registry = other.registry ∧
        other'.states = other.states := by
  constructor
  · obtain ⟨s', hrun⟩ := ensurePartitions_of_open hopen b.states
    obtain ⟨s'', hsettles, ⟨e, herror⟩ | ⟨hok, hhas⟩⟩ := ensurePartitions_cases b.states target
    · cases hrun.symm.trans herror
    · obtain rfl : s' = s'' := congrArg (fun r => r.2.store) (hrun.symm.trans hok)
      -- the snapshot is read back as its states, and they make up the registry again
      refine ⟨⟨s', target.builder, target.config, b.registry⟩, ?_, rfl, hhas, ?_⟩
      · unfold Backend.restore
        rw [snapshot, Registry.ofJson?_snapshot]
        simp only [ne_eq, not_true, if_false]
        rw [Call.bind_of_ok hrun, ← hb.named.ofList_states]
        rfl
      · intro name hmissing hpresent
        rcases hsettles name with ⟨hsame, -⟩ | ⟨-, -, kind, hkind, hway⟩
        · -- a partition that has not changed is not new
          rw [show Store.has s' name = true from hpresent] at hsame
          exact absurd (hsame.trans hmissing) (by decide)
        · obtain ⟨info, hfind, rfl⟩ := Option.map_eq_some_iff.1 hkind
          have hname : info.name = name := by simpa using List.find?_some hfind
          refine ⟨info, List.mem_of_find?_eq_some hfind, hname, ?_⟩
          have hnone : Merging.way target.store name = none :=
            operator?_of_missing hmissing
          rw [hnone, Option.or_none, operatorFor_eq] at hway
          exact hway
  · -- the states are those of the registry
    intro document other other' e h
    have hregistry := registry_of_restore_error h
    exact ⟨hregistry, by rw [states, states, hregistry]⟩

/-- Names with a quote, a control and characters of two to four bytes, in place of what was
registered before. -/
theorem restore_snapshot_of_quoted_names :
    let fresh : Backend MemoryStore :=
      ⟨MemoryStore.empty, KeyBuilder.composite 128, BackendConfig.default, Table.empty⟩
    let b := (Backend.registerList "a\"\n\\" Codec.u64
      (Backend.registerValue "é€😀\u0001" Codec.string fresh).2).2
    let target := (Backend.registerValue "other" Codec.u64 fresh).2
    ∃ target', Backend.restore (Utf8.encode b.snapshot) target = (.ok (), target') ∧
      target'.states = [⟨"a\"\n\\", .list, Codec.u64.descriptor⟩,
        ⟨"é€😀\u0001", .value, Codec.string.descriptor⟩] ∧
      target'.store.has "a\"\n\\" = true := by
  intro fresh b target
  have hfresh : Backend.withBuilder MemoryStore.empty BackendConfig.default
      (KeyBuilder.composite 128) = .ok fresh := rfl
  have hb : b.Filled := .registerList (.registerValue (.withBuilder hfresh) _ _) _ _
  have hstates : b.states = [⟨"a\"\n\\", .list, Codec.u64.descriptor⟩,
      ⟨"é€😀\u0001", .value, Codec.string.descriptor⟩] := by decide +kernel
  obtain ⟨⟨target', hrun, hsame, hhas, -⟩, -⟩ :=
    restore_snapshot (τ := MemoryStore) hb (show target.store.closed = false by decide +kernel)
  rw [hstates] at hsame hhas
  exact ⟨target', hrun, hsame, hhas _ List.mem_cons_self⟩

end Backend

end AppendLists
