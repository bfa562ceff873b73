import AppendLists.Proofs.Backend.Migrating
import AppendLists.Proofs.Backend.Registration
import AppendLists.Proofs.State.FailedCall
import AppendLists.Proofs.State.WrittenLists
import AppendLists.Proofs.Store.Told

namespace AppendLists

/-!
# Backends over stores told by contents

What registrations and the calls of list handles come to where a store is told by its contents: the
one makes partitions without values, and the other keep to the partition of the handle.

* `Backend.kind?`, `Backend.Registered`: the kinds of states, and what a registration does;
* `Backend.ensurePartition_told`, `Backend.register_told`: every registration does that, or nothing;
* `Desk.Follows`, `HandleCall.run_keeps`: a call on a list handle keeps what calls on its partition
  keep.
-/

open Told

/-! ### Registrations -/

namespace Backend

variable {σ : Type}

/-- The kind of a registered state. -/
def kind? (b : Backend σ) (name : String) : Option StateKind :=
  (b.registry.find? name).map (·.kind)

variable [Store σ] [Told σ]

/-- What a registration that succeeds does: the state is there, with its partition, and was of no
other kind before. Other states and all values are left alone. -/
structure Registered (name : String) (kind : StateKind) (b b' : Backend σ) : Prop where
  /-- The layout of storage keys stays. -/
  builder : b'.builder = b.builder
  /-- The settings stay. -/
  config : b'.config = b.config
  /-- The store is sound. -/
  sound : Sound b'.store
  /-- The state is of the kind. -/
  kind : b'.kind? name = some kind
  /-- What is registered stays registered. -/
  retained : ∀ other k, b.kind? other = some k → b'.kind? other = some k
  /-- Other states are as they were. -/
  others : ∀ other, other ≠ name → b'.kind? other = b.kind? other
  /-- The state has a partition. -/
  partition : ((see b'.store).operator name).isSome
  /-- Partitions stay. -/
  partitions : ∀ other, ((see b.store).operator other).isSome →
    ((see b'.store).operator other).isSome
  /-- Values stay. -/
  values : (see b'.store).value = (see b.store).value

/-- A partition that is ensured is there, and nothing else happens. -/
theorem ensurePartition_told {b : Backend σ} (hs : Sound b.store) (name : String)
    (kind : StateKind) :
    ∃ s', ensurePartition name kind b = (.ok (), { b with store := s' }) ∧ Sound s' ∧
      ((see s').operator name).isSome ∧
      (∀ other, ((see b.store).operator other).isSome → ((see s').operator other).isSome) ∧
      (see s').value = (see b.store).value := by
  unfold ensurePartition
  have hhas := Told.has hs name
  cases hname : (see b.store).operator name with
  | some op =>
    -- it is there already
    rw [hname] at hhas
    exact ⟨b.store, if_pos hhas, hs, by rw [hname]; rfl, fun _ h => h, rfl⟩
  | none =>
    rw [hname] at hhas
    -- it is created, and has no values yet
    obtain ⟨s', hcreate, hsee, hs'⟩ := create_run hs hname (operatorFor kind)
    refine ⟨s', ?_, hs', ?_, ?_, ?_⟩
    · rw [if_neg (by simp [hhas])]
      exact onStore_run (Call.attempting_of_ok .creatingPartition hcreate)
    · simp [hsee, Contents.addPartition]
    · intro other hother
      rw [hsee]
      simp only [Contents.addPartition]
      split
      · rfl
      · exact hother
    · rw [hsee]
      rfl

/-- A registration is refused and changes nothing, or it succeeds. -/
theorem register_told {b : Backend σ} (hs : Sound b.store)
    (hpartitions : ∀ name, (b.kind? name).isSome → ((see b.store).operator name).isSome)
    (name : String) (kind : StateKind) (d : Descriptor) :
    (∃ e, register name kind d b = (.error e, b)) ∨
      ∃ b', register name kind d b = (.ok (.fresh name b.builder b.config.maxParallelism), b') ∧
        Registered name kind b b' := by
  cases hempty : name.isEmpty with
  | true => exact .inl ⟨_, register_of_empty hempty kind d⟩
  | false =>
    cases hinfo : b.registry.find? name with
    | some info =>
      rcases register_found_cases hempty hinfo kind d with herror | ⟨hkind, -, hrun⟩
      · exact .inl herror
      · -- the state is known, so its partition is
        have hfound : b.kind? name = some kind := by rw [kind?, hinfo, Option.map_some, hkind]
        exact .inr ⟨b, hrun, rfl, rfl, hs, hfound, fun _ _ h => h, fun _ _ => rfl,
          hpartitions name (by rw [hfound]; rfl), fun _ h => h, rfl⟩
    | none =>
      obtain ⟨s', hensure, hs', hpartition, hkept, hvalues⟩ := ensurePartition_told hs name kind
      refine .inr ⟨{ b with store := s', registry := b.registry.insert name ⟨name, kind, d⟩ }, ?_,
        rfl, rfl, hs', ?_, ?_, ?_, hpartition, hkept, hvalues⟩
      · rw [register_of_missing hempty hinfo, Call.bind_of_ok hensure]
        rfl
      · simp [kind?]
      · intro other k hother
        -- a known state is another one than the new one
        have hne : other ≠ name := by
          rintro rfl
          rw [kind?, hinfo] at hother
          cases hother
        simpa [kind?, hne] using hother
      · intro other hne
        simp [kind?, hne]

end Backend

/-! ### Calls on list handles -/

section

variable {α τ σ : Type} {P : σ → Prop}

/-- Whatever a list handle is called for, its partition stays the same, and what calls on that
partition keep is kept; of the backend only the store changes. -/
structure Desk.Follows (P : σ → Prop) (d d' : Desk σ α τ) : Prop where
  /-- The store. -/
  store : P d'.backend.store
  /-- The rest of the backend. -/
  backend : d'.backend = { d.backend with store := d'.backend.store }
  /-- The partition of the handle. -/
  partition : d'.handle.context.partition = d.handle.context.partition

variable {d : Desk σ α τ}

theorem Desk.Follows.point (h : P d.backend.store)
    {move : ListState α → Except StateError (ListState α)}
    (hmove : ∀ h', move d.handle = .ok h' →
      h'.context.partition = d.handle.context.partition) :
    Desk.Follows P d (Desk.point move d).2 := by
  unfold Desk.point
  cases hto : move d.handle with
  | error e => exact ⟨h, rfl, rfl⟩
  | ok h' => exact ⟨h, rfl, hmove h' hto⟩

theorem Desk.Follows.ask {β : Type} (h : P d.backend.store) {reply : β → ListReply α}
    {call : ListState α → Call σ StateError β} {Q : β → Prop}
    (hcall : Call.Keeps P (call d.handle) Q) : Desk.Follows P d (Desk.ask reply call d).2 :=
  ⟨(hcall d.backend.store h).1, rfl, rfl⟩

variable [Store σ]

theorem HandleCall.run_keeps (hP : Guards d.handle.context.partition (fun _ => True) P)
    (h : P d.backend.store) (c : HandleCall α τ) : Desk.Follows P d (c.run d).2 := by
  have hW : ∀ xs bs, xs ≠ [] → encodeList d.handle.codec xs = .ok bs → True :=
    fun _ _ _ _ => trivial
  cases c with
  | forEach visit =>
    refine ⟨?_, rfl, rfl⟩
    show P (d.handle.forEach visit (d.backend.store, d.own)).2.1
    rw [ListState.after_forEach]
    exact (ListState.keeps_getRaw hP d.backend.store h).1
  | list c =>
    cases c with
    | setKey key => exact .point h fun _ hto => (ListState.same_of_setKey hto).1
    | setNamespace ns => exact .point h fun _ hto => (ListState.same_of_setNamespace hto).1
    | add x => exact .ask h (ListState.keeps_add hP hW x)
    | addAll xs => exact .ask h (ListState.keeps_addAll hP hW xs)
    | update xs => exact .ask h (ListState.keeps_update hP hW xs)
    | clear => exact .ask h (ListState.keeps_clear hP)
    | mergeNamespaces target sources =>
      exact .ask h (ListState.keeps_mergeNamespaces hP target sources)
    | get => exact .ask h (ListState.keeps_get hP)
    | getRaw => exact .ask h (ListState.keeps_getRaw hP)

end

end AppendLists
