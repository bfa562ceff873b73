import AppendLists.Backend.Snapshot
import AppendLists.Proofs.Call

namespace AppendLists

/-!
# What the calls of a backend keep

A backend changes its store as the store allows, and its registry by recording states under their
own names. A property that both respect is kept by every call, whether it succeeds or fails.

* `Backend.Stable`: such properties;
* `keeps_onStore`, `keeps_ensurePartitions`: what depends on the store alone;
* `Stable.register`, `Stable.registerList`, `Stable.registerValue`, `Stable.restore`,
  `Stable.upgradeList`, `Stable.compact`: the calls keep them, and what a registration answers is
  made of a backend that has them.
-/

namespace Backend

variable {α β σ τ ε : Type} {P : Backend σ → Prop}

/-- A property of backends that holds whatever becomes of the store, and whatever states are
recorded under their own names. -/
structure Stable (P : Backend σ → Prop) : Prop where
  /-- The store may change. -/
  store : ∀ {b : Backend σ}, P b → ∀ store, P { b with store := store }
  /-- A state may be recorded. -/
  record {b : Backend σ} (h : P b) (info : StateMeta) :
    P { b with registry := b.registry.insert info.name info }
  /-- All states may be replaced. -/
  replace {b : Backend σ} (h : P b) (infos : List StateMeta) :
    P { b with registry := Table.ofList (infos.map fun info => (info.name, info)) }

/-! ### Properties that have nothing to do with the store -/

section

variable (hstore : ∀ {b : Backend σ}, P b → ∀ store, P { b with store := store })

include hstore

/-- What is said of the registry is not changed by calls on the store. -/
theorem keeps_onStore (call : Call σ ε α) : Call.Keeps P (onStore call) fun _ => True :=
  fun _ hb => ⟨hstore hb _, fun _ _ => trivial⟩

variable [Store σ]

/-- Nor is it by making partitions. -/
theorem keeps_ensurePartition (name : String) (kind : StateKind) :
    Call.Keeps P (ensurePartition name kind) fun _ => True := by
  intro b hb
  unfold ensurePartition
  split
  · exact ⟨hb, fun _ _ => trivial⟩
  · exact keeps_onStore hstore _ b hb

theorem keeps_ensurePartitions (infos : List StateMeta) :
    Call.Keeps P (ensurePartitions infos) fun _ => True := by
  induction infos with
  | nil => exact .answer trivial
  | cons info infos ih => exact (keeps_ensurePartition hstore _ _).bind fun _ _ => ih

end

/-- A question changes nothing. -/
theorem keeps_query (f : Backend σ → Except ε α) :
    Call.Keeps P (Call.query f) fun a => ∃ b : Backend σ, P b ∧ f b = .ok a :=
  fun b hb => ⟨hb, fun _ ha => ⟨b, hb, ha⟩⟩

/-! ### Registrations, upgrades, snapshots and passes -/

namespace Stable

variable (hP : Stable P)

include hP

/-- What is stable outlives the recording of a state. -/
theorem recordOne (info : StateMeta) : Call.Keeps P (Backend.record info) fun _ => True :=
  fun _ hb => ⟨hP.record hb info, fun _ _ => trivial⟩

variable [Store σ]

/-- A registration hands on a context with the settings. -/
theorem register (name : String) (kind : StateKind) (codec : Descriptor) :
    Call.Keeps P (Backend.register name kind codec) fun c => ∃ b : Backend σ, P b ∧
      c = .fresh name b.builder b.config.maxParallelism := by
  unfold Backend.register
  split
  · intro b hb
    refine ⟨hb, ?_⟩
    intro c hc
    cases hc
  · apply (keeps_query _).bind
    rintro b ⟨_, hb, ⟨⟩⟩
    -- the answer is made of the backend that was read, before any partition is created
    have hanswer : Call.Keeps (ε := StateError) P
        (Call.answer (StateContext.fresh name b.builder b.config.maxParallelism))
        fun c => ∃ b : Backend σ, P b ∧ c = .fresh name b.builder b.config.maxParallelism :=
      .answer ⟨b, hb, rfl⟩
    cases b.registry.find? name with
    | some info =>
      exact (Call.Keeps.ofExcept _).bind fun _ _ => (Call.Keeps.ofExcept _).bind fun _ _ => hanswer
    | none =>
      apply (keeps_ensurePartition hP.store _ _).bind
      intro _ _
      exact (hP.recordOne _).bind fun _ _ => hanswer

/-- So it does every registration. -/
theorem registerList (name : String) (codec : Codec α) :
    Call.Keeps P (Backend.registerList name codec) fun _ => True :=
  (hP.register _ _ _).answered fun _ _ => trivial

theorem registerValue (name : String) (codec : Codec α) :
    Call.Keeps P (Backend.registerValue name codec) fun _ => True :=
  (hP.register _ _ _).answered fun _ _ => trivial

/-- So it does a restored document. -/
theorem restore (document : Bytes) : Call.Keeps P (Backend.restore document) fun _ => True := by
  unfold Backend.restore
  split
  · exact fun _ hb => ⟨hb, fun _ _ => trivial⟩
  · split
    · exact fun _ hb => ⟨hb, fun _ _ => trivial⟩
    · apply (keeps_ensurePartitions hP.store _).bind
      exact fun _ _ _ hb => ⟨hP.replace hb _, fun _ _ => trivial⟩

/-- So it does an upgrade, which records the new codec at its end. -/
theorem upgradeList (name : String) (prior : Codec α) (new : Codec β)
    (convert : ElementMigration α β) :
    Call.Keeps P (Backend.upgradeList name prior new convert) fun _ => True := by
  unfold Backend.upgradeList
  apply (keeps_query _).bind
  intro info _
  apply (Call.Keeps.ofExcept _).bind
  intro _ _
  apply (Call.Keeps.ofExcept _).bind
  intro _ _
  apply (keeps_onStore hP.store _).bind
  intro entries _
  apply (Call.Keeps.ofExcept _).bind
  intro migrated _
  apply (keeps_onStore hP.store _).bind
  intro _ _
  exact (hP.recordOne _).answered fun _ _ => trivial

/-- A pass has a state of its own beside the backend. -/
theorem compact {b : Backend σ} (hb : P b) (name : String) (filter : Option (Filter (σ × τ)))
    (t : τ) : P (Backend.compact name filter (b, t)).2.1 := by
  cases hinfo : b.info name with
  | error e => simpa only [Backend.compact, hinfo] using hb
  | ok info =>
    simp only [Backend.compact, hinfo]
    exact hP.store hb _

end Stable

end Backend

end AppendLists
