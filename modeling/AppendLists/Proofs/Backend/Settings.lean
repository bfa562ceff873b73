import AppendLists.Proofs.Backend.Stable

namespace AppendLists

/-!
# The settings of a backend

The layout of storage keys and the settings of a backend are checked when it is made, and no call
changes them. Every handle gets them when its state is registered.

* `Backend.HasSettings`: a backend with a layout and settings;
* `ofStore_eq_ok`: the settings that are accepted;
* `stable_hasSettings`: the calls keep them;
* `Backend.Opened`, `Opened.hasSettings`, `Opened.maxParallelism_bounds`: a backend after any calls;
* `Opened.register_context`: where its handles start.
-/

namespace Backend

variable {σ : Type} {builder : KeyBuilder} {config : BackendConfig}

/-- A backend with a layout of storage keys and settings. -/
structure HasSettings (builder : KeyBuilder) (config : BackendConfig) (b : Backend σ) : Prop where
  /-- The layout. -/
  builder_eq : b.builder = builder
  /-- The settings. -/
  config_eq : b.config = config

/-- The usual layout goes with the number of groups, which is positive and fits two bytes. -/
theorem ofStore_eq_ok {store : σ} {b : Backend σ} (h : ofStore store config = .ok b) :
    b.HasSettings (KeyBuilder.composite config.maxParallelism) config ∧
      1 ≤ config.maxParallelism ∧ config.maxParallelism ≤ 32768 := by
  unfold ofStore withBuilder BackendConfig.validate at h
  split at h
  · cases h
  · case isFalse hrange =>
    split at h
    · cases h
    · obtain rfl := Except.ok.inj h
      exact ⟨⟨rfl, rfl⟩, by omega, by omega⟩

/-- No call has access to the settings. -/
theorem stable_hasSettings (builder : KeyBuilder) (config : BackendConfig) :
    Stable (HasSettings (σ := σ) builder config) where
  store h _ := ⟨h.builder_eq, h.config_eq⟩
  record h _ := ⟨h.builder_eq, h.config_eq⟩
  replace h _ := ⟨h.builder_eq, h.config_eq⟩

variable [Store σ]

/-! ### Backends after any calls -/

/-- The states of a backend that was opened over a store, after any calls. -/
inductive Opened (store : σ) (config : BackendConfig) : Backend σ → Prop where
  /-- It is opened. -/
  | ofStore {b : Backend σ} (h : ofStore store config = .ok b) : Opened store config b
  /-- A state is registered. -/
  | register {b : Backend σ} (h : Opened store config b) (name : String) (kind : StateKind)
      (codec : Descriptor) : Opened store config (register name kind codec b).2
  /-- The registry is restored. -/
  | restore {b : Backend σ} (h : Opened store config b) (document : Bytes) :
      Opened store config (restore document b).2
  /-- A list state is upgraded. -/
  | upgradeList {b : Backend σ} (h : Opened store config b) {α β : Type} (name : String)
      (prior : Codec α) (new : Codec β) (convert : ElementMigration α β) :
      Opened store config (upgradeList name prior new convert b).2
  /-- A pass over a state. -/
  | compact {b : Backend σ} (h : Opened store config b) {τ : Type} (name : String)
      (filter : Option (Filter (σ × τ))) (t : τ) :
      Opened store config (compact name filter (b, t)).2.1
  /-- A call on the store, by a handle or by others who share it. -/
  | onStore {b : Backend σ} (h : Opened store config b) {ε α : Type} (call : Call σ ε α) :
      Opened store config (onStore call b).2

/-- The settings are those that it was opened with. -/
theorem Opened.hasSettings {store : σ} {b : Backend σ} (h : Opened store config b) :
    b.HasSettings (KeyBuilder.composite config.maxParallelism) config := by
  induction h with
  | ofStore h => exact (ofStore_eq_ok h).1
  | register _ name kind codec ih =>
    exact ((stable_hasSettings _ _).register name kind codec _ ih).1
  | restore _ document ih => exact ((stable_hasSettings _ _).restore document _ ih).1
  | upgradeList _ name prior new convert ih =>
    exact ((stable_hasSettings _ _).upgradeList name prior new convert _ ih).1
  | compact _ name filter t ih => exact (stable_hasSettings _ _).compact ih name filter t
  | onStore _ call ih => exact (keeps_onStore (stable_hasSettings _ _).store call _ ih).1

/-- The number of groups is one that was accepted. -/
theorem Opened.maxParallelism_bounds {store : σ} {b : Backend σ} (h : Opened store config b) :
    1 ≤ config.maxParallelism ∧ config.maxParallelism ≤ 32768 := by
  induction h with
  | ofStore h => exact (ofStore_eq_ok h).2
  | register _ _ _ _ ih => exact ih
  | restore _ _ ih => exact ih
  | upgradeList _ _ _ _ _ ih => exact ih
  | compact _ _ _ _ ih => exact ih
  | onStore _ _ ih => exact ih

/-- Its handles start without key, in the default namespace. -/
theorem Opened.register_context {store : σ} {b b' : Backend σ} (h : Opened store config b)
    {name : String} {kind : StateKind} {codec : Descriptor} {c : StateContext}
    (hregister : Backend.register name kind codec b = (.ok c, b')) :
    c = .fresh name (KeyBuilder.composite config.maxParallelism) config.maxParallelism := by
  obtain ⟨b₁, hb₁, hc⟩ := ((stable_hasSettings _ _).register name kind codec b h.hasSettings).2 c
    (congrArg Prod.fst hregister)
  rw [hc, hb₁.builder_eq, hb₁.config_eq]

end Backend

end AppendLists
