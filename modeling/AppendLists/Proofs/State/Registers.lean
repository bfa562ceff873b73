import AppendLists.Proofs.State.SingleValues
import AppendLists.Proofs.State.Workspaces

namespace AppendLists

/-!
# Value states are registers

A value state has a register for every key and namespace: whichever handle to the state reads there,
it reads what was last written there through any of them. Handles to other states make no
difference, since they call other partitions, and neither do other keys and namespaces, since they
have other storage keys.

* `StoredAs`: what is stored for a value;
* `ValueState.Held`: handles to a value state;
* `Backend.Ready`: backends on which a value state can begin;
* `Workspace.Coherent`: the invariant, with `Coherent.step` for one call and `Coherent.run` for any
  number of them;
* `Workspace.ActsAsRegister`, `value_states_are_registers`: reading gives what was last written.
-/

open Told

/-! ### What is stored -/

section

variable {α : Type} {codec : Codec α}

/-- Whether the stored bytes, if any, are what is written for the value, if there is one. -/
inductive StoredAs (codec : Codec α) : Option α → Option Bytes → Prop
  /-- No value. -/
  | absent : StoredAs codec none none
  /-- A value. -/
  | written {x : α} {bs : Bytes} (h : codec.encode x = .ok bs) : StoredAs codec (some x) (some bs)

/-- A handle that was given out for a value state, as `fresh`, and pointed at short keys since. -/
structure ValueState.Held (codec : Codec α) (fresh : StateContext) (h : ValueState α) : Prop where
  /-- The codec of the state. -/
  codec : h.codec = codec
  /-- Where it points. -/
  pointed : ∃ key ns, StateContext.PointedAt fresh key ns h.context
  /-- Its key is short. -/
  short : ∀ key, h.context.current = some key → ShortKey key.bytes

namespace ValueState.Held

variable {name : String} {builder : KeyBuilder} {m : Nat} {h h' : ValueState α}

/-- A new handle points nowhere. -/
theorem fresh (codec : Codec α) (name : String) (builder : KeyBuilder) (m : Nat) :
    Held codec (.fresh name builder m) ⟨.fresh name builder m, codec⟩ where
  codec := rfl
  pointed := ⟨none, none, .start⟩
  short _ hkey := by cases hkey

/-- A handle stays in its partition. -/
theorem partition (hh : h.Held codec (.fresh name builder m)) : h.context.partition = name := by
  obtain ⟨_, _, hpointed⟩ := hh.pointed
  exact hpointed.isAt.partition_eq

/-- A handle that points elsewhere has another context. -/
theorem eq_of_map {r : Except StateError StateContext}
    (hto : r.map (fun context => { h with context }) = .ok h') :
    r = .ok h'.context ∧ h'.codec = h.codec := by
  cases r with
  | error e => cases hto
  | ok c =>
    obtain rfl := Except.ok.inj hto
    exact ⟨rfl, rfl⟩

/-- Pointing it at a key keeps its codec. -/
theorem setKey {key : Part} (hh : h.Held codec (.fresh name builder m))
    (hshort : ∀ bytes, key.serialize = .ok bytes → ShortKey bytes) (hto : h.setKey key = .ok h') :
    h'.Held codec (.fresh name builder m) := by
  obtain ⟨hc, hcodec⟩ := eq_of_map hto
  obtain ⟨_, ns, hpointed⟩ := hh.pointed
  refine ⟨hcodec.trans hh.codec, ⟨_, ns, hpointed.setKey hc⟩, ?_⟩
  obtain ⟨bytes, hbytes, hcontext⟩ := StateContext.setKey_eq_ok hc
  rw [hcontext]
  rintro _ ⟨⟩
  exact hshort bytes (Part.serialize_eq_ok_iff.2 hbytes)

/-- So does pointing it at a namespace. -/
theorem setNamespace {ns : Part} (hh : h.Held codec (.fresh name builder m))
    (hto : h.setNamespace ns = .ok h') : h'.Held codec (.fresh name builder m) := by
  obtain ⟨hc, hcodec⟩ := eq_of_map hto
  obtain ⟨key, _, hpointed⟩ := hh.pointed
  refine ⟨hcodec.trans hh.codec, ⟨key, _, hpointed.setNamespace hc⟩, ?_⟩
  obtain ⟨bytes, -, hcontext⟩ := StateContext.setNamespace_eq_ok hc
  rw [hcontext]
  exact hh.short

/-- The group of a key is that of its bytes. -/
theorem storageKey (hh : h.Held codec (.fresh name builder m)) {key : CurrentKey}
    (hkey : h.context.current = some key) :
    h.context.storageKey = .ok (builder (keyGroup key.bytes m) key.bytes h.context.ns) := by
  obtain ⟨_, _, hpointed⟩ := hh.pointed
  have hat := hpointed.isAt
  rw [StateContext.storageKey, StateContext.keyIn, hkey, hat.builder_eq]
  rcases hat.current with ⟨-, hnone⟩ | ⟨_, bytes, -, -, hsome⟩
  · rw [hnone] at hkey
    cases hkey
  · rw [hsome] at hkey
    obtain rfl := Option.some.inj hkey
    rfl

end ValueState.Held

end

/-! ### The invariant -/

/-- Whether the value state of a name can begin on a backend. -/
structure Backend.Ready {σ : Type} [Store σ] [Told σ] (b : Backend σ) (name : String) : Prop where
  /-- The store is open, and satisfies its invariant. -/
  sound : Sound b.store
  /-- Keys and namespaces have storage keys of their own. -/
  separates : b.builder.Separates b.config.maxParallelism
  /-- The states that are registered have partitions. -/
  partitions : ∀ other, (b.kind? other).isSome → ((see b.store).operator other).isSome
  /-- Nothing is stored in the partition of the name. -/
  blank : ∀ key, (see b.store).value name key = none

/-- A new backend with the usual layout of storage keys, over a store without values. -/
theorem Backend.Ready.of_empty {σ : Type} [Store σ] [Told σ] {s : σ} (hs : Sound s)
    (config : BackendConfig) (name : String) (hblank : ∀ key, (see s).value name key = none) :
    Backend.Ready ⟨s, .composite config.maxParallelism, config, Table.empty⟩ name :=
  ⟨hs, KeyBuilder.separates_composite _, nofun, hblank⟩

namespace Workspace

variable {σ : Type} [Store σ] [Told σ] {T : StateTypes} {builder : KeyBuilder} {m : Nat}
  {blank : String → Prop} {w : Workspace σ T} {name : String}

/-- What holds after any calls, if the partitions of `blank` names had no values at first. -/
structure Coherent (builder : KeyBuilder) (m : Nat) (blank : String → Prop)
    (w : Workspace σ T) : Prop where
  /-- The store is sound. -/
  sound : Sound w.backend.store
  /-- The layout of storage keys. -/
  layout : w.backend.builder = builder
  /-- The number of key groups. -/
  groups : w.backend.config.maxParallelism = m
  /-- States have partitions. -/
  partitions : ∀ name, (w.backend.kind? name).isSome →
    ((see w.backend.store).operator name).isSome
  /-- Value handles are handles to their states. -/
  values : ∀ name, ∀ h ∈ (w.values name).handles,
    w.backend.kind? name = some .value ∧ h.Held (T.codec name) (.fresh name builder m)
  /-- List handles are handles to list states. -/
  lists : ∀ h ∈ w.lists, w.backend.kind? h.2.context.partition = some .list
  /-- What was last written is stored. -/
  stored : ∀ name, blank name → w.backend.kind? name ≠ some .list →
    ∀ key ns, ShortKey key → StoredAs (T.codec name) (latest key ns (w.values name).changes)
      ((see w.backend.store).value name (builder (keyGroup key m) key ns))

namespace Coherent

/-- A workspace that starts on a filled store remembers nothing, and what is not blank may be
anything. -/
theorem start {b : Backend σ} (hs : Sound b.store)
    (hpartitions : ∀ name, (b.kind? name).isSome → ((see b.store).operator name).isSome)
    (hblank : ∀ name, blank name → ∀ key, (see b.store).value name key = none) :
    (Workspace.start b : Workspace σ T).Coherent b.builder b.config.maxParallelism blank where
  sound := hs
  layout := rfl
  groups := rfl
  partitions := hpartitions
  values _ _ h := by cases h
  lists _ h := by cases h
  stored name hname _ key ns _ := by
    show StoredAs _ none ((see b.store).value name _)
    rw [hblank name hname]
    exact .absent

variable (hw : w.Coherent builder m blank)
include hw

/-- A registration that succeeds. -/
theorem registered {kind : StateKind} {b : Backend σ}
    (hb : Backend.Registered name kind w.backend b) :
    ({ w with backend := b } : Workspace σ T).Coherent builder m blank where
  sound := hb.sound
  layout := hb.builder.trans hw.layout
  groups := (congrArg (·.maxParallelism) hb.config).trans hw.groups
  partitions other hother := by
    by_cases hne : other = name
    · rw [hne]
      exact hb.partition
    · rw [hb.others other hne] at hother
      exact hb.partitions other (hw.partitions other hother)
  values other h hh := by
    obtain ⟨hkind, hheld⟩ := hw.values other h hh
    exact ⟨hb.retained _ _ hkind, hheld⟩
  lists h hh := hb.retained _ _ (hw.lists h hh)
  stored other hother hkind key ns hkey := by
    -- a state that is no list state now was none before
    rw [hb.values]
    exact hw.stored other hother (fun h => hkind (hb.retained _ _ h)) key ns hkey

/-- Another handle to a value state, or handles that point elsewhere. -/
theorem hold {hs : List (ValueState (T.Item name))}
    (hheld : ∀ h ∈ hs, w.backend.kind? name = some .value ∧
      h.Held (T.codec name) (.fresh name builder m)) :
    (w.change name fun u => { u with handles := hs }).Coherent builder m blank where
  sound := hw.sound
  layout := hw.layout
  groups := hw.groups
  partitions := hw.partitions
  values other h hh := by
    by_cases hne : other = name
    · subst hne
      rw [values_change_self] at hh
      exact hheld h hh
    · rw [values_change_of_ne hne] at hh
      exact hw.values other h hh
  lists := hw.lists
  stored other hother hkind key ns hkey := by
    -- what a state remembers does not depend on who holds handles to it
    have hsame : ((w.change name fun u => { u with handles := hs }).values other).changes
        = (w.values other).changes := by
      by_cases hne : other = name
      · subst hne
        rw [values_change_self]
      · rw [values_change_of_ne hne]
    rw [hsame]
    exact hw.stored other hother hkind key ns hkey

/-- What is written through a handle is what is stored, and no other key or namespace has the same
storage key. -/
theorem write (hbuilder : builder.Separates m) {h : ValueState (T.Item name)}
    (hh : h ∈ (w.values name).handles) {key : CurrentKey} (hkey : h.context.current = some key)
    {value : Option (T.Item name)} {bs : Option Bytes} (hstored : StoredAs (T.codec name) value bs)
    {s : σ} (hs : Sound s)
    (hsee : see s = (see w.backend.store).setValue name
      (builder (keyGroup key.bytes m) key.bytes h.context.ns) bs) :
    (({ w with backend := { w.backend with store := s } } : Workspace σ T).change name
      (ValueUse.note h value)).Coherent builder m blank := by
  have hshort := (hw.values name h hh).2.short key hkey
  -- the values are left: the store has the new bytes, and the state remembers the change
  refine ⟨hs, hw.layout, hw.groups, ?_, ?_, hw.lists, ?_⟩
  · intro other hother
    rw [backend_change, hsee]
    exact hw.partitions other hother
  · intro other h' hh'
    by_cases hne : other = name
    · subst hne
      rw [values_change_self, ValueUse.note_of_key hkey] at hh'
      exact hw.values other h' hh'
    · rw [values_change_of_ne hne] at hh'
      exact hw.values other h' hh'
  · intro other hother hkind key' ns' hkey'
    have hbefore := hw.stored other hother hkind key' ns' hkey'
    rw [backend_change, hsee, Contents.value_setValue]
    by_cases hne : other = name
    · subst hne
      rw [values_change_self, ValueUse.note_of_key hkey]
      by_cases hplace : key.bytes = key' ∧ h.context.ns = ns'
      · -- the place that was written
        obtain ⟨rfl, rfl⟩ := hplace
        rw [if_pos ⟨rfl, rfl⟩]
        show StoredAs _ (latest key.bytes h.context.ns (⟨key.bytes, h.context.ns, value⟩ :: _)) bs
        rw [latest_cons_self ⟨key.bytes, h.context.ns, value⟩]
        exact hstored
      · -- another place has another storage key, because both keys are short
        have hapart : ¬ (other = other ∧ builder (keyGroup key' m) key' ns'
            = builder (keyGroup key.bytes m) key.bytes h.context.ns) := fun heq =>
          hplace ((hbuilder _ _ _ _ hkey' hshort heq.2).imp Eq.symm Eq.symm)
        rw [if_neg hapart, latest_cons_of_ne hplace]
        exact hbefore
    · -- another value state has another partition
      rw [values_change_of_ne hne, if_neg fun heq => hne heq.1]
      exact hbefore

/-- Calls on the partition of a list state leave value states alone. -/
theorem confined {other : String} (hkind : w.backend.kind? other = some .list) {s : σ}
    (hs : Confined other (see w.backend.store) s) :
    ({ w with backend := { w.backend with store := s } } : Workspace σ T).Coherent builder m
      blank where
  sound := hs.sound
  layout := hw.layout
  groups := hw.groups
  partitions name hname := by
    rw [hs.operator]
    exact hw.partitions name hname
  values := hw.values
  lists := hw.lists
  stored name hname hlist := by
    have hne : name ≠ other := by
      rintro rfl
      exact hlist hkind
    rw [hs.elsewhere name hne]
    exact hw.stored name hname hlist

/-- List handles may point elsewhere, and there may be more of them. -/
theorem holdLists {hs : List ((kind : T.Kind) × ListState (T.Element kind))}
    (hlists : ∀ h ∈ hs, w.backend.kind? h.2.context.partition = some .list) :
    ({ w with lists := hs } : Workspace σ T).Coherent builder m blank :=
  ⟨hw.sound, hw.layout, hw.groups, hw.partitions, hw.values, hlists, hw.stored⟩

/-! ### One call -/

/-- Registering a value state adds a handle to what can be used. -/
theorem registerValue (name : String) :
    (w.step (.registerValue name)).Coherent builder m blank := by
  rw [step]
  rcases Backend.register_told hw.sound hw.partitions name .value (T.codec name).descriptor with
    ⟨e, hrun⟩ | ⟨b, hrun, hb⟩
  · have hvalue : Backend.registerValue name (T.codec name) w.backend = (.error e, w.backend) :=
      Call.bind_of_error hrun _
    rw [hvalue]
    exact hw
  · have hvalue : Backend.registerValue name (T.codec name) w.backend
        = (.ok ⟨.fresh name w.backend.builder w.backend.config.maxParallelism, T.codec name⟩, b) :=
      Call.bind_of_ok hrun _
    rw [hvalue, hw.layout, hw.groups]
    have hb' := hw.registered hb
    refine hb'.hold fun h hh => ?_
    rcases List.mem_append.1 hh with hh | hh
    · exact hb'.values name h hh
    · obtain rfl := List.mem_singleton.1 hh
      exact ⟨hb.kind, .fresh _ _ _ _⟩

/-- So does registering a list state, in another partition. -/
theorem registerList (name : String) (kind : T.Kind) (codec : Codec (T.Element kind)) :
    (w.step (.registerList name kind codec)).Coherent builder m blank := by
  rw [step]
  rcases Backend.register_told hw.sound hw.partitions name .list codec.descriptor with
    ⟨e, hrun⟩ | ⟨b, hrun, hb⟩
  · have hlist : Backend.registerList name codec w.backend = (.error e, w.backend) :=
      Call.bind_of_error hrun _
    rw [hlist]
    exact hw
  · have hlist : Backend.registerList name codec w.backend
        = (.ok ⟨.fresh name w.backend.builder w.backend.config.maxParallelism, codec⟩, b) :=
      Call.bind_of_ok hrun _
    rw [hlist]
    have hb' := hw.registered hb
    refine hb'.holdLists fun h hh => ?_
    rcases List.mem_append.1 hh with hh | hh
    · exact hb'.lists h hh
    · obtain rfl := List.mem_singleton.1 hh
      exact hb.kind

/-- A handle that takes the place of one. -/
theorem replace {h h' : ValueState (T.Item name)} (hh : h ∈ (w.values name).handles)
    (hheld : h.Held (T.codec name) (.fresh name builder m) →
      h'.Held (T.codec name) (.fresh name builder m)) (i : Nat) :
    (w.change name fun u => { u with handles := u.handles.set i h' }).Coherent builder m blank := by
  refine hw.hold fun h₁ hh₁ => ?_
  rcases List.mem_or_eq_of_mem_set hh₁ with hh₁ | rfl
  · exact hw.values name h₁ hh₁
  · exact (hw.values name h hh).imp_right hheld

/-- Pointing a handle elsewhere changes no value. -/
theorem setKey (name : String) (i : Nat) {key : Part}
    (hshort : ∀ bytes, key.serialize = .ok bytes → ShortKey bytes) :
    (w.step (.setKey name i key)).Coherent builder m blank := by
  rw [step]
  split
  · case h_1 h' hset =>
    obtain ⟨h, hi, hto⟩ := Option.map_eq_some_iff.1 hset
    exact hw.replace (List.mem_of_getElem? hi) (fun hheld => hheld.setKey hshort hto) i
  · exact hw

theorem setNamespace (name : String) (i : Nat) (ns : Part) :
    (w.step (.setNamespace name i ns)).Coherent builder m blank := by
  rw [step]
  split
  · case h_1 h' hset =>
    obtain ⟨h, hi, hto⟩ := Option.map_eq_some_iff.1 hset
    exact hw.replace (List.mem_of_getElem? hi) (fun hheld => hheld.setNamespace hto) i
  · exact hw

omit hw in
/-- The partition of a handle is there. -/
theorem operator_isSome (hw : w.Coherent builder m blank) {h : ValueState (T.Item name)}
    (hh : h ∈ (w.values name).handles) :
    ((see w.backend.store).operator h.context.partition).isSome := by
  obtain ⟨hkind, hheld⟩ := hw.values name h hh
  rw [hheld.partition]
  exact hw.partitions name (by rw [hkind]; rfl)

/-- An update writes the value that is remembered from then on. -/
theorem update (hbuilder : builder.Separates m) (name : String) (i : Nat) (x : T.Item name) :
    (w.step (.update name i x)).Coherent builder m blank := by
  rw [step]
  cases hi : (w.values name).handles[i]? with
  | none => exact hw
  | some h =>
    have hh := List.mem_of_getElem? hi
    have hheld := (hw.values name h hh).2
    cases hkey : h.context.current with
    | none =>
      simp only [Backend.onStore, ValueState.update_of_no_key hkey]
      exact hw
    | some key =>
      rcases ValueState.update_run hw.sound (hw.operator_isSome hh) (hheld.storageKey hkey) x with
        ⟨e, -, hrun⟩ | ⟨bs, s, hencode, hrun, hs, hsee⟩
      · simp only [Backend.onStore, hrun]
        exact hw
      · simp only [Backend.onStore, hrun]
        rw [hheld.partition] at hsee
        rw [hheld.codec] at hencode
        exact hw.write hbuilder hh hkey (.written hencode) hs hsee

/-- A cleared value is remembered as absent. -/
theorem clear (hbuilder : builder.Separates m) (name : String) (i : Nat) :
    (w.step (.clear name i)).Coherent builder m blank := by
  rw [step]
  cases hi : (w.values name).handles[i]? with
  | none => exact hw
  | some h =>
    have hh := List.mem_of_getElem? hi
    have hheld := (hw.values name h hh).2
    cases hkey : h.context.current with
    | none =>
      simp only [Backend.onStore, ValueState.clear_of_no_key hkey]
      exact hw
    | some key =>
      obtain ⟨s, hrun, hs, hsee⟩ :=
        ValueState.clear_run hw.sound (hw.operator_isSome hh) (hheld.storageKey hkey)
      simp only [Backend.onStore, hrun]
      rw [hheld.partition] at hsee
      exact hw.write hbuilder hh hkey .absent hs hsee

/-- Reading changes nothing. -/
theorem value (name : String) (i : Nat) : (w.step (.value name i)).Coherent builder m blank := by
  rw [step]
  cases (w.values name).handles[i]? with
  | none => exact hw
  | some h =>
    have hkept := (ValueState.keeps_value (h := h) (· = w.backend.store) w.backend.store rfl).1
    simp only [Backend.onStore, hkept]
    exact hw

/-- What list handles do stays in the partitions of lists. -/
theorem list (i : Nat) {τ : Type} (own : τ)
    (c : (kind : T.Kind) → HandleCall (T.Element kind) τ) :
    (w.step (.list i own c)).Coherent builder m blank := by
  rw [step]
  cases hi : w.lists[i]? with
  | none => exact hw
  | some held =>
    obtain ⟨kind, h⟩ := held
    have hkind := hw.lists _ (List.mem_of_getElem? hi)
    have hfollows := HandleCall.run_keeps (d := ⟨w.backend, h, own⟩)
      (guards_confined h.context.partition (see w.backend.store))
      ⟨hw.sound, rfl, fun _ _ => rfl⟩ (c kind)
    dsimp only
    generalize ((c kind).run ⟨w.backend, h, own⟩).2 = d at hfollows
    obtain ⟨hs, hbackend, hpartition⟩ := hfollows
    have hafter := hw.confined hkind hs
    rw [hbackend]
    refine hafter.holdLists fun h' hh' => ?_
    rcases List.mem_or_eq_of_mem_set hh' with hh' | rfl
    · exact hw.lists h' hh'
    · show w.backend.kind? d.handle.context.partition = some .list
      rw [hpartition]
      exact hkind

/-- A handle that is bound to another codec is still one to a list. -/
theorem rebind (i : Nat) (kind : T.Kind) (codec : Codec (T.Element kind)) :
    (w.step (.rebind i kind codec)).Coherent builder m blank := by
  rw [step]
  cases hi : w.lists[i]? with
  | none => exact hw
  | some held =>
    refine hw.holdLists fun h hh => ?_
    rcases List.mem_append.1 hh with hh | hh
    · exact hw.lists h hh
    · obtain rfl := List.mem_singleton.1 hh
      exact hw.lists held (List.mem_of_getElem? hi)

/-- Every call keeps the invariant, whether it succeeds or fails. -/
theorem step (hbuilder : builder.Separates m) {call : WorkCall T} (hshort : call.Short) :
    (w.step call).Coherent builder m blank := by
  cases call with
  | registerValue name => exact hw.registerValue name
  | registerList name kind codec => exact hw.registerList name kind codec
  | setKey name i key => exact hw.setKey name i hshort
  | setNamespace name i ns => exact hw.setNamespace name i ns
  | update name i x => exact hw.update hbuilder name i x
  | clear name i => exact hw.clear hbuilder name i
  | value name i => exact hw.value name i
  | list i own c => exact hw.list i own c
  | rebind i kind codec => exact hw.rebind i kind codec

/-- Any number of steps keep handles, values and memory together. -/
theorem run (hbuilder : builder.Separates m) {calls : List (WorkCall T)}
    (hshort : ∀ call ∈ calls, call.Short) : (w.run calls).Coherent builder m blank := by
  induction calls generalizing w with
  | nil => exact hw
  | cons call calls ih =>
    obtain ⟨hcall, hcalls⟩ := List.forall_mem_cons.1 hshort
    exact ih (hw.step hbuilder hcall) hcalls

/-- What was last written is read. -/
theorem value_eq (hconforming : (T.codec name).Conforming) (hblank : blank name)
    {h : ValueState (T.Item name)} (hh : h ∈ (w.values name).handles) {key : CurrentKey}
    (hkey : h.context.current = some key) :
    h.value w.backend.store
      = (.ok (latest key.bytes h.context.ns (w.values name).changes), w.backend.store) := by
  obtain ⟨hkind, hheld⟩ := hw.values name h hh
  have hlist : w.backend.kind? name ≠ some .list := by
    rw [hkind]
    decide
  have hstored := hw.stored name hblank hlist key.bytes h.context.ns (hheld.short key hkey)
  have hget := Told.get hw.sound (hw.operator_isSome hh)
    (builder (keyGroup key.bytes m) key.bytes h.context.ns)
  have hvalues : (see w.backend.store).value h.context.partition
      = (see w.backend.store).value name := congrArg _ hheld.partition
  rw [hvalues] at hget
  -- there is a value if one was written last, and it is what was written for that
  generalize (see w.backend.store).value name _ = bs at hstored hget
  generalize latest key.bytes h.context.ns (w.values name).changes = value at hstored ⊢
  cases hstored with
  | absent => exact ValueState.value_of_get_none (hheld.storageKey hkey) hget
  | written hencode =>
    rw [ValueState.value_of_get (hheld.storageKey hkey) hget, hheld.codec,
      hconforming.decodeValue_of_encode hencode]
    rfl

end Coherent

/-! ### Registers -/

/-- Through every handle to the value state that points at a key, what was last written for its key
and namespace is read, and values can be written and removed. -/
structure ActsAsRegister (w : Workspace σ T) (name : String) : Prop where
  /-- Reading changes nothing, and gives what was last written. -/
  reads : ∀ h ∈ (w.values name).handles, ∀ key, h.context.current = some key →
    h.value w.backend.store
      = (.ok (latest key.bytes h.context.ns (w.values name).changes), w.backend.store)
  /-- What the codec can write can be set. -/
  updates : ∀ h ∈ (w.values name).handles, ∀ key, h.context.current = some key →
    ∀ x, (T.codec name).Writes x → ∃ s, h.update x w.backend.store = (.ok (), s)
  /-- Any value can be removed. -/
  clears : ∀ h ∈ (w.values name).handles, ∀ key, h.context.current = some key →
    ∃ s, h.clear w.backend.store = (.ok (), s)

omit [Told σ] in
/-- One of the handles reads what one of them has to read. -/
theorem ActsAsRegister.exists_reads (hw : w.ActsAsRegister name) {value : Option (T.Item name)}
    (hmem : some value ∈ (w.values name).handles.map fun h =>
      h.context.current.map fun key => latest key.bytes h.context.ns (w.values name).changes) :
    ∃ h ∈ (w.values name).handles, h.value w.backend.store = (.ok value, w.backend.store) := by
  obtain ⟨h, hh, hlast⟩ := List.mem_map.1 hmem
  obtain ⟨key, hkey, rfl⟩ := Option.map_eq_some_iff.1 hlast
  exact ⟨h, hh, hw.reads h hh key hkey⟩

/-- A state that was blank reads as it was written last. -/
theorem Coherent.actsAsRegister (hw : w.Coherent builder m blank)
    (hconforming : (T.codec name).Conforming) (hblank : blank name) : w.ActsAsRegister name where
  reads h hh key hkey := hw.value_eq hconforming hblank hh hkey
  updates h hh key hkey x := by
    rintro ⟨bs, hencode⟩
    have hheld := (hw.values name h hh).2
    rcases ValueState.update_run hw.sound (hw.operator_isSome hh) (hheld.storageKey hkey) x with
      ⟨e, hfails, -⟩ | ⟨_, s, -, hrun, -⟩
    · rw [hheld.codec, hencode] at hfails
      cases hfails
    · exact ⟨s, hrun⟩
  clears h hh key hkey := by
    have hheld := (hw.values name h hh).2
    obtain ⟨s, hrun, -⟩ :=
      ValueState.clear_run hw.sound (hw.operator_isSome hh) (hheld.storageKey hkey)
    exact ⟨s, hrun⟩

/-- Over any store that is told by contents. -/
theorem run_actsAsRegister (hconforming : (T.codec name).Conforming) {b : Backend σ}
    (hb : b.Ready name) {calls : List (WorkCall T)} (hshort : ∀ call ∈ calls, call.Short) :
    ((start b).run calls).ActsAsRegister name := by
  have hstart : (start b : Workspace σ T).Coherent b.builder b.config.maxParallelism
      (· = name) := by
    refine .start hb.sound hb.partitions ?_
    rintro _ rfl
    exact hb.blank
  exact (hstart.run hb.separates hshort).actsAsRegister hconforming rfl

end Workspace

/-- **Value states are registers.** On a backend over a memory store, or over one in a wrapper that
merges by reading, value and list states are registered, and handles to them are called in any
order, value handles at short keys. Take a value state with a conforming codec, in whose partition
nothing was stored at first. Through any handle to it, what was last set through any of them at the
key and namespace of that handle is read, and nothing if that was removed since or was never set.

Over any store, a handle with a codec of a fixed layout reads stored bytes as an item if they are
what is written for the item, and as corrupt if they are not written for any. -/
theorem value_states_are_registers (T : StateTypes) :
    (∀ (b : Backend MemoryStore) (name : String), (T.codec name).Conforming → b.Ready name →
      ∀ calls : List (WorkCall T), (∀ call ∈ calls, call.Short) →
        ((Workspace.start b).run calls).ActsAsRegister name) ∧
    (∀ (b : Backend (MergeOnRead MemoryStore)) (name : String), (T.codec name).Conforming →
      b.Ready name → ∀ calls : List (WorkCall T), (∀ call ∈ calls, call.Short) →
        ((Workspace.start b).run calls).ActsAsRegister name) ∧
    ∀ {σ : Type} [Store σ] (spec : CodecSpec) (context : StateContext) (key raw : Bytes)
      (s s' : σ), spec.FixedLayout → context.storageKey = .ok key →
      Store.get context.partition key s = (.ok (some raw), s') →
        (∀ x, ValueState.value ⟨context, spec.codec⟩ s = (.ok (some x), s') ↔
          spec.codec.encode x = .ok raw) ∧
        ((∀ x, spec.codec.encode x ≠ .ok raw) →
          ∃ reason, ValueState.value ⟨context, spec.codec⟩ s = (.error (.corrupt reason), s')) := by
  refine ⟨fun b name hconforming hb calls hshort => ?_,
    fun b name hconforming hb calls hshort => ?_, ?_⟩
  · exact Workspace.run_actsAsRegister hconforming hb hshort
  · exact Workspace.run_actsAsRegister hconforming hb hshort
  · intro σ _ spec context key raw s s' hfixed hkey hget
    exact ValueState.value_of_strict (h := ⟨context, spec.codec⟩) hfixed.strict hkey hget

/-- Two handles to one value state, one to another and one to a list state, all at one key. The
second handle reads what was set through the first before that was pointed at a namespace of its
own; the number that is stored there is no stamped byte string. -/
theorem registers_keep_apart :
    let T : StateTypes := ⟨fun _ => UInt64, fun _ => Codec.u64, Unit, fun _ => UInt64⟩
    let calls : List (WorkCall T) := [
      .registerValue "a", .registerValue "a", .registerValue "b", .registerList "l" () Codec.u64,
      .setKey "a" 0 (.unsigned 1), .setKey "a" 1 (.unsigned 1), .setKey "b" 0 (.unsigned 1),
      .update "a" 0 5, .update "b" 0 6, .setNamespace "a" 0 (.text "n"), .update "a" 0 7,
      .list 0 () fun _ => .list (.setKey (.unsigned 1)), .list 0 () fun _ => .list (.add 8),
      .clear "b" 0]
    let memory := (Workspace.start ⟨MemoryStore.empty, .composite 128, .default, Table.empty⟩).run
      calls
    let wrapped := (Workspace.start
      ⟨MergeOnRead.wrap MemoryStore.empty, .composite 128, .default, Table.empty⟩).run calls
    let context : StateContext :=
      { StateContext.fresh "a" (.composite 128) 128 with current := some ⟨27, [1]⟩ }
    (∃ h ∈ (memory.values "a").handles,
      h.value memory.backend.store = (.ok (some 5), memory.backend.store)) ∧
    (∃ h ∈ (wrapped.values "a").handles,
      h.value wrapped.backend.store = (.ok (some 7), wrapped.backend.store)) ∧
    (∃ h ∈ (wrapped.values "b").handles,
      h.value wrapped.backend.store = (.ok none, wrapped.backend.store)) ∧
    ∃ reason, ValueState.value ⟨context, (CodecSpec.stamped .bytes).codec⟩ memory.backend.store
      = (.error (.corrupt reason), memory.backend.store) := by
  intro T calls memory wrapped context
  have hshort : ∀ call ∈ calls, call.Short := by
    have hone : ∀ bytes, (Part.unsigned 1).serialize = .ok bytes → ShortKey bytes := by
      rintro _ ⟨⟩
      show List.length _ < _
      decide +kernel
    simpa [calls, WorkCall.Short] using hone
  -- the two stores answer alike, so what was set last is looked up in what is remembered
  obtain ⟨hmemory, hwrapped, hfixed⟩ := value_states_are_registers T
  have hempty := MergeOnRead.Sound.wrap_empty
  have hone : memory.ActsAsRegister "a" :=
    hmemory _ "a" Codec.conforming_u64 (.of_empty rfl .default "a" fun _ => rfl) calls hshort
  have htwo : wrapped.ActsAsRegister "a" :=
    hwrapped _ "a" Codec.conforming_u64 (.of_empty hempty .default "a" fun _ => rfl) calls hshort
  have hthree : wrapped.ActsAsRegister "b" :=
    hwrapped _ "b" Codec.conforming_u64 (.of_empty hempty .default "b" fun _ => rfl) calls hshort
  have hlast : some (some 5) ∈ (memory.values "a").handles.map fun h =>
      h.context.current.map fun key =>
        latest key.bytes h.context.ns (memory.values "a").changes := by decide +kernel
  have hlast' : some (some 7) ∈ (wrapped.values "a").handles.map fun h =>
      h.context.current.map fun key =>
        latest key.bytes h.context.ns (wrapped.values "a").changes := by decide +kernel
  have hlast'' : some none ∈ (wrapped.values "b").handles.map fun h =>
      h.context.current.map fun key =>
        latest key.bytes h.context.ns (wrapped.values "b").changes := by decide +kernel
  have hraw : (Store.get "a" [27, 0, 0, 0, 1, 1] memory.backend.store).1
      = .ok (some [0, 0, 0, 0, 0, 0, 0, 5]) := by decide +kernel
  -- eight bytes of a number are too short for a stamped byte string
  have hnone : ∀ x, (CodecSpec.stamped .bytes).codec.encode x ≠ .ok [0, 0, 0, 0, 0, 0, 0, 5] := by
    intro x hencode
    have hfixed : (CodecSpec.stamped .bytes).FixedLayout := trivial
    have hdecode := hfixed.strict.conforming.decodeValue_of_encode hencode
    cases hdecode
  clear_value memory wrapped
  refine ⟨hone.exists_reads hlast, htwo.exists_reads hlast', hthree.exists_reads hlast'', ?_⟩
  exact (hfixed (.stamped .bytes) context [27, 0, 0, 0, 1, 1] _ memory.backend.store _ trivial rfl
    (Prod.ext hraw rfl)).2 hnone

end AppendLists
