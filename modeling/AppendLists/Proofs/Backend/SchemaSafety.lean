import Mathlib
import AppendLists.Proofs.Backend.ListStates
import AppendLists.Proofs.Codec.Exact

namespace AppendLists

/-!
# Schemas are safe

The registry says which codec the lists of a state are written with, and nothing but the registry
knows it: stored bytes name no codec. In memory the two stay in step, as long as a codec is known by
its descriptor, and handles and filters are given up when their state is upgraded.

* `Schema`: a codec for every descriptor;
* `Session`, `SessionCall`, `Session.step`, `Session.run`: a backend with the handles and filters
  that its callers hold, and their calls;
* `Backend.InStep`, `Session.InStep`: the invariant, with `InStep.step` for one call and
  `InStep.run` for any number of them;
* `Session.run_reads_lists`: what is registered is what can be read;
* `Codec.untimed`, `Schema.numbers`, `Session.upgraded_numbers_are_read`: numbers without a time upgraded to
  numbers with one.
-/

variable {α : Type} {name : String}

/-! ### Sessions -/

/-- A codec for every descriptor. Where there is none, one of a type without items will do. -/
structure Schema where
  /-- The items of a descriptor. -/
  Item : Descriptor → Type
  /-- The codec. -/
  codec : (d : Descriptor) → Codec (Item d)
  /-- It is known by the descriptor. -/
  described : ∀ d, (codec d).descriptor = d
  /-- It is conforming. -/
  conforming : ∀ d, (codec d).Conforming

/-- A handle to a list state, with the descriptor of its codec. -/
structure ListHandle (S : Schema) where
  /-- The descriptor. -/
  descriptor : Descriptor
  /-- The handle. -/
  state : ListState (S.Item descriptor)

/-- A backend in memory, and what its callers hold. -/
structure Session (S : Schema) where
  /-- The backend. -/
  backend : Backend MemoryStore
  /-- The handles, each registered since the last upgrade of its state. -/
  handles : List (ListHandle S)
  /-- The filters, each asked for since the last upgrade of the state that it is named with. -/
  filters : List (String × Filter (MemoryStore × Unit))

/-- A call in a session. What is asked of a handle may depend on the codec that the handle has. -/
inductive SessionCall (S : Schema) : Type 1 where
  /-- Register a list state and hold the handle. -/
  | registerList (name : String) (d : Descriptor)
  /-- Register a value state. -/
  | registerValue (name : String) (d : Descriptor)
  /-- A call on a handle. -/
  | list (i : Nat) (c : (d : Descriptor) → ListCall (S.Item d))
  /-- Visit the elements of a list through a handle. -/
  | forEach (i : Nat) {τ : Type} (visit : (d : Descriptor) → S.Item d → Call τ StateError Unit)
      (t : τ)
  /-- Upgrade a list state. -/
  | upgradeList (name : String) (prior new : Descriptor)
      (convert : ElementMigration (S.Item prior) (S.Item new))
  /-- Ask for a filter of a list state and hold it. -/
  | listFilter (name : String) (d : Descriptor) (t : ElementTransformer (S.Item d))
  /-- A pass over a state without a filter. -/
  | compact (name : String)
  /-- A pass over the state of a filter with it. -/
  | compactWith (i : Nat)

namespace Session

variable {S : Schema}

/-- A session over a new store. -/
def start (S : Schema) (builder : KeyBuilder) (config : BackendConfig) : Session S :=
  ⟨⟨MemoryStore.empty, builder, config, Table.empty⟩, [], []⟩

/-- The session after a call, whether that succeeds or fails. After an upgrade the handles and
filters of the state are given up. -/
def step (sys : Session S) : SessionCall S → Session S
  | .registerList name d =>
    match Backend.registerList name (S.codec d) sys.backend with
    | (.ok h, b) => { sys with backend := b, handles := sys.handles ++ [⟨d, h⟩] }
    | (.error _, b) => { sys with backend := b }
  | .registerValue name d =>
    { sys with backend := (Backend.registerValue name (S.codec d) sys.backend).2 }
  | .list i c =>
    match sys.handles[i]? with
    | none => sys
    | some ⟨d, h⟩ =>
      match Backend.onStore ((c d).run h) sys.backend with
      | (.ok (_, h'), b) => { sys with backend := b, handles := sys.handles.set i ⟨d, h'⟩ }
      | (.error _, b) => { sys with backend := b }
  | .forEach i visit t =>
    match sys.handles[i]? with
    | none => sys
    | some ⟨d, h⟩ =>
      let (_, store, _) := h.forEach (visit d) (sys.backend.store, t)
      { sys with backend := { sys.backend with store } }
  | .upgradeList name prior new convert =>
    match Backend.upgradeList name (S.codec prior) (S.codec new) convert sys.backend with
    | (.ok _, b) =>
      { backend := b
        handles := sys.handles.filter fun h => h.state.context.partition ≠ name
        filters := sys.filters.filter fun f => f.1 ≠ name }
    | (.error _, b) => { sys with backend := b }
  | .listFilter name d t =>
    match sys.backend.listFilter name (S.codec d) t with
    | .ok filter => { sys with filters := sys.filters ++ [(name, filter)] }
    | .error _ => sys
  | .compact name => { sys with backend := (Backend.compact name none (sys.backend, ())).2.1 }
  | .compactWith i =>
    match sys.filters[i]? with
    | none => sys
    | some (name, filter) =>
      { sys with backend := (Backend.compact name (some filter) (sys.backend, ())).2.1 }

/-- Calls in turn. -/
def run (calls : List (SessionCall S)) (sys : Session S) : Session S := calls.foldl step sys

end Session

/-! ### The registry and the stored lists in step -/

namespace Backend

/-- What holds of a backend after any calls. -/
structure InStep (S : Schema) (b : Backend MemoryStore) : Prop where
  /-- The store is open. -/
  opened : b.store.closed = false
  /-- States have names. -/
  named : ∀ name info, b.registry.find? name = some info → name.isEmpty = false
  /-- What is not registered has no partition. -/
  missing : ∀ name, b.registry.find? name = none → b.store.partitions.find? name = none
  /-- A list state has lists in the codec that it is registered with. -/
  lists : ∀ name info, b.registry.find? name = some info → info.kind = .list →
    b.store.ListsOnly (S.codec info.codec) name

section

variable {σ τ : Type} [Store σ] {b : Backend σ}

/-- A pass over a state that is not registered is none. -/
theorem after_compact_of_missing (hfind : b.registry.find? name = none)
    (filter : Option (Filter (σ × τ))) (t : τ) : (compact name filter (b, t)).2.1 = b := by
  simp only [compact, Backend.info, hfind]

/-- A pass over a registered state changes the store and nothing else of the backend. -/
theorem after_compact {info : StateMeta} (hfind : b.registry.find? name = some info)
    (filter : Option (Filter (σ × τ))) (t : τ) :
    (compact name filter (b, t)).2.1
      = { b with store := (AppendLists.compact name filter (b.store, t)).2.1 } := by
  simp only [compact, Backend.info, hfind]

end

/-- Whether every state is registered as it was. -/
def Retains (b b' : Backend MemoryStore) : Prop :=
  ∀ name kind d, b.HasState name kind d → b'.HasState name kind d

namespace InStep

variable {S : Schema} {b b' : Backend MemoryStore}

/-- An empty backend is in step. -/
theorem start (S : Schema) (builder : KeyBuilder) (config : BackendConfig) :
    InStep S ⟨MemoryStore.empty, builder, config, Table.empty⟩ where
  opened := rfl
  named _ _ h := by cases h
  missing _ _ := rfl
  lists _ _ h := by cases h

/-- One state may change, with its partition. -/
theorem change (h : b.InStep S) (hchanges : MemoryStore.ChangesOnly name b.store b'.store)
    (hothers : ∀ other, other ≠ name → b'.registry.find? other = b.registry.find? other)
    (hempty : name.isEmpty = false) {info : StateMeta}
    (hinfo : b'.registry.find? name = some info)
    (hlists : info.kind = .list → b'.store.ListsOnly (S.codec info.codec) name) :
    b'.InStep S where
  opened := hchanges.closed.trans h.opened
  named other info' hfind := by
    by_cases hother : other = name
    · rwa [hother]
    · rw [hothers other hother] at hfind
      exact h.named other info' hfind
  missing other hfind := by
    -- a state that is registered is not among the missing ones
    have hother : other ≠ name := by
      rintro rfl
      rw [hinfo] at hfind
      cases hfind
    rw [hothers other hother] at hfind
    rw [hchanges.elsewhere other hother, h.missing other hfind]
  lists other info' hfind hkind := by
    by_cases hother : other = name
    · -- in this partition the lists are those of the new record, elsewhere those of before
      subst hother
      obtain rfl := Option.some.inj (hinfo.symm.trans hfind)
      exact hlists hkind
    · rw [hothers other hother] at hfind
      exact (h.lists other info' hfind hkind).elsewhere hchanges hother

/-- One state may be recorded anew, with its partition. -/
theorem record (h : b.InStep S) {s : MemoryStore} {info : StateMeta}
    (hchanges : MemoryStore.ChangesOnly name b.store s) (hempty : name.isEmpty = false)
    (hlists : info.kind = .list → s.ListsOnly (S.codec info.codec) name) :
    ({ b with store := s, registry := b.registry.insert name info } :
      Backend MemoryStore).InStep S :=
  h.change hchanges (fun other hother => by simp [hother]) hempty (by simp) hlists

/-- A registration retains what is registered. One that succeeds finds the state registered, or
registers it. -/
theorem register (h : b.InStep S) (name : String) (kind : StateKind) (d : Descriptor) :
    (register name kind d b).2.InStep S ∧ b.Retains (register name kind d b).2 ∧
      ∀ context b', register name kind d b = (.ok context, b') →
        context.partition = name ∧ b'.HasState name kind d := by
  rcases register_cases h.opened (h.missing name) kind d with
    ⟨e, hrun⟩ | ⟨b', hrun, hempty, ⟨hstate, rfl⟩ | ⟨hnone, rfl⟩⟩
  · rw [hrun]
    exact ⟨h, fun _ _ _ => id, nofun⟩
  · rw [hrun]
    refine ⟨h, fun _ _ _ => id, ?_⟩
    rintro _ _ ⟨⟩
    exact ⟨rfl, hstate⟩
  · rw [hrun]
    refine ⟨?_, ?_, ?_⟩
    · -- the new partition is empty, and an empty partition holds lists of every codec
      apply h.record ((MemoryStore.ChangesOnly.refl name b.store).setPartition _) hempty
      rintro (rfl : kind = .list)
      exact .setPartition h.opened (.empty (by rintro _ ⟨⟩; rfl) _)
    · intro other kind' d' hstate
      have hother : other ≠ name := by
        rintro rfl
        obtain ⟨info, hfind, -⟩ := hstate
        rw [hnone] at hfind
        cases hfind
      exact hstate.insert hother _ _
    · rintro _ _ ⟨⟩
      exact ⟨rfl, ⟨name, kind, d⟩, by simp, rfl, rfl⟩

/-- A call on the partition of a registered list that keeps whatever is kept as long as lists are
written. -/
theorem call {γ : Type} (h : b.InStep S) {d : Descriptor} (hstate : b.HasState name .list d)
    (call : Call MemoryStore StateError γ) {Q : γ → Prop}
    (hcall : ∀ W P, Guards name W P → (∀ bs, WrittenList (S.codec d) bs → W bs) →
      Call.Keeps P call Q) :
    ({ b with store := (call b.store).2 } : Backend MemoryStore).InStep S ∧
      ∀ a, (call b.store).1 = .ok a → Q a := by
  obtain ⟨info, hfind, hkind, rfl⟩ := hstate
  have hchanges := hcall _ _ (MemoryStore.guarded_changesOnly name b.store) (fun _ _ => trivial)
    b.store (.refl name b.store)
  have hlists := hcall _ _ (MemoryStore.guarded_listsOnly (S.conforming info.codec).appending name)
    (fun _ hbs => hbs) b.store (h.lists name info hfind hkind)
  exact ⟨h.change hchanges.1 (fun _ _ => rfl) (h.named name info hfind) hfind fun _ => hlists.1,
    hchanges.2⟩

/-- A pass whose filter, if it goes over lists, makes lists of lists. -/
theorem compact (h : b.InStep S) (name : String) (filter : Option PureFilter)
    (hfilter : ∀ d, b.HasState name .list d → ∀ value value', WrittenList (S.codec d) value →
      PureFilter.decide filter (some value) = .ok (some value') → WrittenList (S.codec d) value') :
    (compact name (filter.map PureFilter.toFilter) (b, ())).2.1.InStep S ∧
      (compact name (filter.map PureFilter.toFilter) (b, ())).2.1.registry = b.registry := by
  cases hfind : b.registry.find? name with
  | none =>
    rw [after_compact_of_missing hfind]
    exact ⟨h, rfl⟩
  | some info =>
    rw [after_compact hfind]
    refine ⟨h.change ?_ (fun _ _ => rfl) (h.named name info hfind) hfind ?_, rfl⟩
    · exact .compact name b.store filter ()
    · intro hkind
      exact (h.lists name info hfind hkind).compact filter (hfilter _ ⟨info, hfind, hkind, rfl⟩) ()

end InStep

end Backend

variable {S : Schema} {b b' : Backend MemoryStore} {sys : Session S}

/-- Whether a handle is one to a registered list state with its codec. -/
structure ListHandle.Fits (b : Backend MemoryStore) (h : ListHandle S) : Prop where
  /-- The state is registered with the descriptor of the handle. -/
  state : b.HasState h.state.context.partition .list h.descriptor
  /-- The codec is the one of the descriptor. -/
  codec : h.state.codec = S.codec h.descriptor

/-- Whether a filter transforms the lists of a registered state with its codec. -/
def Schema.FilterFits (S : Schema) (b : Backend MemoryStore)
    (f : String × Filter (MemoryStore × Unit)) : Prop :=
  ∃ d t, b.HasState f.1 .list d ∧
    f.2 = .ofFunction (transformName (S.codec d)) (transformList (S.codec d) t)

/-- A handle fits as long as its state stays registered. -/
theorem ListHandle.Fits.mono {h : ListHandle S} (hf : h.Fits b) (hkept : b.Retains b') :
    h.Fits b' := ⟨hkept _ _ _ hf.state, hf.codec⟩

/-- So does a filter. -/
theorem Schema.FilterFits.mono {f : String × Filter (MemoryStore × Unit)} (hf : S.FilterFits b f)
    (hkept : b.Retains b') : S.FilterFits b' f := by
  obtain ⟨d, t, hstate, hfilter⟩ := hf
  exact ⟨d, t, hkept _ _ _ hstate, hfilter⟩

namespace Session

/-- What holds after any calls. -/
structure InStep (sys : Session S) : Prop where
  /-- The registry and the stored lists are in step. -/
  backend : sys.backend.InStep S
  /-- So are the handles. -/
  handles : ∀ h ∈ sys.handles, h.Fits sys.backend
  /-- So are the filters. -/
  filters : ∀ f ∈ sys.filters, S.FilterFits sys.backend f

namespace InStep

/-- What is held is still good while the registered states are retained. -/
theorem retain (h : sys.InStep) (hb : b.InStep S) (hkept : sys.backend.Retains b) :
    ({ sys with backend := b } : Session S).InStep where
  backend := hb
  handles x hx := (h.handles x hx).mono hkept
  filters f hf := (h.filters f hf).mono hkept

/-- A new handle has the codec that its state is registered with. -/
theorem registerList (h : sys.InStep) (name : String) (d : Descriptor) :
    (sys.step (.registerList name d)).InStep := by
  obtain ⟨hb, hkept, hok⟩ := h.backend.register name .list d
  rw [step]
  rcases hrun : Backend.register name .list d sys.backend with ⟨e | context, b⟩
  · have hlist : Backend.registerList name (S.codec d) sys.backend = (.error e, b) :=
      Call.bind_of_error (by rw [S.described, hrun]) _
    rw [hrun] at hb hkept
    rw [hlist]
    exact h.retain hb hkept
  · have hlist : Backend.registerList name (S.codec d) sys.backend
        = (.ok ⟨context, S.codec d⟩, b) :=
      Call.bind_of_ok (by rw [S.described, hrun]) _
    obtain ⟨rfl, hstate⟩ := hok context b hrun
    rw [hrun] at hb hkept
    rw [hlist]
    -- the handles there were are kept, and the new one has the registered codec
    obtain ⟨hb, hhandles, hfilters⟩ := h.retain hb hkept
    refine ⟨hb, ?_, hfilters⟩
    intro x hx
    rcases List.mem_append.1 hx with hx | hx
    · exact hhandles x hx
    · obtain rfl := List.mem_singleton.1 hx
      exact ⟨hstate, rfl⟩

/-- A value state has no lists to keep in step. -/
theorem registerValue (h : sys.InStep) (name : String) (d : Descriptor) :
    (sys.step (.registerValue name d)).InStep := by
  obtain ⟨hb, hkept, -⟩ := h.backend.register name .value d
  rw [step, Backend.after_registerValue, S.described]
  exact h.retain hb hkept

/-- Handles write lists in the codec of their state. -/
theorem list (h : sys.InStep) (i : Nat) (c : (d : Descriptor) → ListCall (S.Item d)) :
    (sys.step (.list i c)).InStep := by
  rw [step]
  cases hi : sys.handles[i]? with
  | none => exact h
  | some handle =>
    obtain ⟨d, state⟩ := handle
    have hfits := h.handles _ (List.mem_of_getElem? hi)
    have hcodec : state.codec = S.codec d := hfits.codec
    -- while the call writes lists of the registered codec, it keeps whatever holds of those
    obtain ⟨hb, hanswer⟩ := h.backend.call hfits.state ((c d).run state)
      fun W P hP hW => (c d).keeps hP (hcodec ▸ hW)
    rcases hrun : (c d).run state sys.backend.store with ⟨e | ⟨reply, state'⟩, s⟩
    · rw [hrun] at hb
      simp only [Backend.onStore_run hrun]
      exact h.retain hb fun _ _ _ => id
    · rw [hrun] at hb hanswer
      simp only [Backend.onStore_run hrun]
      obtain ⟨hname, hsame⟩ := hanswer _ rfl
      obtain ⟨hb, hhandles, hfilters⟩ := h.retain hb fun _ _ _ => id
      refine ⟨hb, ?_, hfilters⟩
      intro x hx
      rcases List.mem_or_eq_of_mem_set hx with hx | rfl
      · exact hhandles x hx
      · exact ⟨hname ▸ hfits.state, hsame.trans hcodec⟩

/-- Visiting changes neither the store nor the registry. -/
theorem forEach (h : sys.InStep) (i : Nat) {τ : Type}
    (visit : (d : Descriptor) → S.Item d → Call τ StateError Unit) (t : τ) :
    (sys.step (.forEach i visit t)).InStep := by
  rw [step]
  cases hi : sys.handles[i]? with
  | none => exact h
  | some handle =>
    obtain ⟨d, state⟩ := handle
    have hfits := h.handles _ (List.mem_of_getElem? hi)
    obtain ⟨hb, -⟩ := h.backend.call hfits.state state.getRaw (Q := fun _ => True)
      fun W P hP _ s hs => ⟨(ListState.keeps_getRaw hP s hs).1, fun _ _ => trivial⟩
    rw [← state.after_forEach (visit d) _ t] at hb
    exact h.retain hb fun _ _ _ => id

/-- An upgrade registers another codec for lists in that codec, and nothing that is still held
belongs to the state. -/
theorem upgradeList (h : sys.InStep) (name : String) (prior new : Descriptor)
    (convert : ElementMigration (S.Item prior) (S.Item new)) :
    (sys.step (.upgradeList name prior new convert)).InStep := by
  have hlists : sys.backend.HasState name .list (S.codec prior).descriptor →
      sys.backend.store.ListsOnly (S.codec prior) name := by
    rw [S.described]
    rintro ⟨info, hfind, hkind, rfl⟩
    exact h.backend.lists name info hfind hkind
  rw [step]
  rcases Backend.upgradeList_listsOnly (S.conforming prior) hlists
    (S.conforming new).appending convert with
    ⟨e, hrun⟩ | ⟨count, s, hrun, ⟨info, hfind, -, -⟩, hnew, hchanges⟩
  · rw [hrun]
    exact h
  · rw [S.described] at hrun
    rw [hrun]
    -- handles and filters of the state are given up, the others belong to other states
    refine ⟨h.backend.record hchanges (h.backend.named name info hfind) fun _ => hnew, ?_, ?_⟩
    · intro x hx
      obtain ⟨hx, hother⟩ := List.mem_filter.1 hx
      obtain ⟨hstate, hcodec⟩ := h.handles x hx
      exact ⟨hstate.insert (of_decide_eq_true hother) _ _, hcodec⟩
    · intro f hf
      obtain ⟨hf, hother⟩ := List.mem_filter.1 hf
      obtain ⟨d, t, hstate, hfilter⟩ := h.filters f hf
      exact ⟨d, t, hstate.insert (of_decide_eq_true hother) _ _, hfilter⟩

/-- A filter is handed out for the registered codec only. -/
theorem listFilter (h : sys.InStep) (name : String) (d : Descriptor)
    (t : ElementTransformer (S.Item d)) : (sys.step (.listFilter name d t)).InStep := by
  rw [step]
  cases hrun : sys.backend.listFilter name (S.codec d) t with
  | error e => exact h
  | ok filter =>
    obtain ⟨hstate, hfilter⟩ := Backend.listFilter_eq_ok_iff.1 hrun
    rw [S.described] at hstate
    refine ⟨h.backend, h.handles, ?_⟩
    intro f hf
    rcases List.mem_append.1 hf with hf | hf
    · exact h.filters f hf
    · obtain rfl := List.mem_singleton.1 hf
      exact ⟨d, t, hstate, hfilter⟩

/-- A pass that makes lists of lists leaves what is registered and held alone. -/
theorem pass (h : sys.InStep) (name : String) (filter : Option PureFilter)
    (hfilter : ∀ d, sys.backend.HasState name .list d → ∀ value value',
      WrittenList (S.codec d) value → PureFilter.decide filter (some value) = .ok (some value') →
        WrittenList (S.codec d) value') :
    ({ sys with backend := (Backend.compact name (filter.map PureFilter.toFilter)
        (sys.backend, ())).2.1 } : Session S).InStep := by
  obtain ⟨hb, hregistry⟩ := h.backend.compact name filter hfilter
  exact h.retain hb fun _ _ _ hstate => hstate.congr (by rw [hregistry])

/-- A pass without a filter makes nothing but lists of lists. -/
theorem compact (h : sys.InStep) (name : String) : (sys.step (.compact name)).InStep := by
  refine h.pass name none ?_
  rintro d _ value _ hvalue ⟨⟩
  exact hvalue

/-- Neither does one with a filter that is held. -/
theorem compactWith (h : sys.InStep) (i : Nat) : (sys.step (.compactWith i)).InStep := by
  rw [step]
  cases hi : sys.filters[i]? with
  | none => exact h
  | some held =>
    obtain ⟨name, filter⟩ := held
    obtain ⟨d, t, ⟨info, hfind, hkind, rfl⟩, rfl⟩ := h.filters _ (List.mem_of_getElem? hi)
    refine h.pass name
      (some ⟨transformName (S.codec info.codec), transformList (S.codec info.codec) t⟩) ?_
    -- the codec of the filter is the one that the state is registered with
    intro d hstate value value' hvalue hdecide
    rw [Backend.hasState_iff hfind hkind] at hstate
    subst hstate
    exact t.keeps_writtenList (S.conforming info.codec) hvalue hdecide

/-- Every call keeps the invariant, whether it succeeds or fails. -/
theorem step (h : sys.InStep) (call : SessionCall S) : (sys.step call).InStep := by
  cases call with
  | registerList name d => exact h.registerList name d
  | registerValue name d => exact h.registerValue name d
  | list i c => exact h.list i c
  | forEach i visit t => exact h.forEach i visit t
  | upgradeList name prior new convert => exact h.upgradeList name prior new convert
  | listFilter name d t => exact h.listFilter name d t
  | compact name => exact h.compact name
  | compactWith i => exact h.compactWith i

/-- Any number of calls keep a session in step. -/
theorem run (h : sys.InStep) (calls : List (SessionCall S)) : (sys.run calls).InStep := by
  induction calls generalizing sys with
  | nil => exact h
  | cons call calls ih => exact ih (h.step call)

end InStep

/-- A session starts in step, without handles and filters. -/
theorem inStep_start (S : Schema) (builder : KeyBuilder) (config : BackendConfig) :
    (start S builder config).InStep :=
  ⟨.start S builder config, nofun, nofun⟩

/-- **The registry and the stored lists stay in step.** Let codecs be conforming and known by their
descriptors. On a backend over a new store, list and value states are registered and list states
upgraded, handles are called, and passes run without a filter or with one that was asked for.
Any of it may be refused or fail; handles and filters are given up when their state is upgraded.
Then a state that is registered as a list state can be listed, every value in it is a list to the
codec that it is registered with, and handles to it and filters for it are given for codecs with the
descriptor of that codec, and for no others. -/
theorem run_reads_lists (S : Schema) (builder : KeyBuilder) (config : BackendConfig)
    (calls : List (SessionCall S)) {name : String} {info : StateMeta}
    (hfind : ((start S builder config).run calls).backend.registry.find? name = some info)
    (hkind : info.kind = .list) :
    let b := ((start S builder config).run calls).backend
    (∃ entries, Store.scan name b.store = (.ok entries, b.store) ∧
      ∀ key value, (key, value) ∈ entries →
        ∃ xs, xs ≠ [] ∧ decodeList (S.codec info.codec) (some value) = .ok xs) ∧
    ∀ {α : Type} (codec : Codec α),
      ((∃ h b', Backend.registerList name codec b = (.ok h, b')) ↔
        codec.descriptor = info.codec) ∧
      ∀ t, (∃ f : Filter (MemoryStore × Unit), b.listFilter name codec t = .ok f) ↔
        codec.descriptor = info.codec := by
  intro b
  have hb : b.InStep S := ((inStep_start S builder config).run calls).backend
  have hfind : b.registry.find? name = some info := hfind
  obtain ⟨p, hp, hlists⟩ := hb.lists name info hfind hkind
  refine ⟨⟨p.resolved, MemoryStore.scan_run hp, ?_⟩, ?_⟩
  · intro key value hmem
    obtain ⟨xs, hxs, hencode⟩ := hlists.lists key value (Partition.mem_resolved_iff.1 hmem)
    exact ⟨xs, hxs, (S.conforming info.codec).decodeList_encodeList hencode⟩
  · intro α codec
    refine ⟨Backend.registerList_isOk_iff (hb.named name info hfind) hfind hkind, fun t => ?_⟩
    rw [← Backend.hasState_iff hfind hkind]
    simp only [Backend.listFilter_eq_ok_iff, exists_and_left, exists_eq, and_true]

end Session

/-- Numbers whose time is left out; times other than zero are refused. -/
def Codec.untimed : Codec (Stamped UInt64) :=
  Codec.u64.embed (fun n => ⟨n, 0⟩) fun x => if x.lastAccess = 0 then some x.value else none

/-- Only numbers without a time are written, and they read back as such. -/
theorem Codec.conforming_untimed : Codec.untimed.Conforming := by
  refine Codec.conforming_u64.embed ?_
  intro x n hproject
  obtain ⟨htime, hvalue⟩ := Option.ite_none_right_eq_some.1 hproject
  obtain rfl : x.value = n := Option.some.inj hvalue
  exact congrArg (Stamped.mk x.value) htime.symm

/-- Numbers with a time: version 1 of every codec leaves the time out and refuses times other than
zero, the later versions write it. -/
def Schema.numbers : Schema where
  Item _ := Stamped UInt64
  codec d :=
    { if d.version = 1 then Codec.untimed else Codec.u64.stamped with
      name := d.name
      version := d.version }
  described _ := rfl
  conforming d := by
    have hconforming : (if d.version = 1 then Codec.untimed else Codec.u64.stamped).Conforming := by
      split
      · exact Codec.conforming_untimed
      · exact Codec.conforming_u64.stamped
    -- the name and the version take no part in writing and reading
    exact ⟨hconforming.appending, hconforming.reads_back⟩

/-- A list that is upgraded, appended to and transformed. Before the upgrade a registration with the
second codec is refused, after it one with the first codec, and the first handle is given up. -/
theorem Session.upgraded_numbers_are_read :
    let S := Schema.numbers
    let first : Descriptor := ⟨"n", 1⟩
    let second : Descriptor := ⟨"n", 2⟩
    let calls : List (SessionCall S) := [
      .registerList "s" first, .list 0 fun _ => .setKey .unit, .list 0 fun _ => .add ⟨7, 0⟩,
      .list 0 fun _ => .add ⟨8, 0⟩, .registerList "s" second,
      .upgradeList "s" first second fun x => .ok ⟨x.value, 5⟩,
      .registerList "s" second, .list 0 fun _ => .setKey .unit, .list 0 fun _ => .add ⟨9, 6⟩,
      .listFilter "s" second ⟨fun x => if x.value = 8 then none else some x, .transformAll⟩,
      .compactWith 0]
    let sys := (start S (KeyBuilder.composite 128) .default).run calls
    sys.backend.registry.find? "s" = some ⟨"s", .list, second⟩ ∧ sys.handles.length = 1 ∧
      (∃ key value, Store.scan "s" sys.backend.store = (.ok [(key, value)], sys.backend.store) ∧
        decodeList (S.codec second) (some value) = .ok [⟨7, 5⟩, ⟨9, 6⟩]) ∧
      (∃ h b, Backend.registerList "s" (S.codec second) sys.backend = (.ok h, b)) ∧
      ¬ ∃ h b, Backend.registerList "s" (S.codec first) sys.backend = (.ok h, b) := by
  intro S first second calls sys
  let codec : Codec (Stamped UInt64) := S.codec second
  -- all that is asked of the session is a function of it, so that its calls are evaluated once
  have hobserved : (fun sys : Session S =>
      (sys.backend.registry.find? "s", sys.handles.length,
        (Store.scan "s" sys.backend.store).1.toOption.map
          (List.map fun e => (decodeList codec (some e.2)).toOption)))
      (run calls (start S (KeyBuilder.composite 128) .default))
      = (some ⟨"s", .list, second⟩, 1, some [some [⟨7, 5⟩, ⟨9, 6⟩]]) := by cbv
  obtain ⟨hfind, hobserved⟩ := Prod.mk.inj hobserved
  obtain ⟨hhandles, hread⟩ := Prod.mk.inj hobserved
  obtain ⟨⟨entries, hscan, hlists⟩, hopens⟩ := run_reads_lists S _ _ calls hfind rfl
  have hsys : run calls (start S (KeyBuilder.composite 128) .default) = sys := rfl
  rw [hsys] at hfind hhandles hread hscan hopens
  clear_value sys
  refine ⟨hfind, hhandles, ?_, (hopens (S.codec second)).1.2 rfl, ?_⟩
  · rw [hscan] at hread
    obtain ⟨⟨key, value⟩, rfl, hlist⟩ := List.map_eq_singleton_iff.1 (Option.some.inj hread)
    obtain ⟨xs, -, hxs⟩ := hlists key value (List.mem_singleton.2 rfl)
    rw [show decodeList codec (some value) = .ok xs from hxs] at hlist
    obtain rfl : xs = [⟨7, 5⟩, ⟨9, 6⟩] := Option.some.inj hlist
    exact ⟨key, value, hscan, hxs⟩
  · rw [(hopens (S.codec first)).1]
    decide

end AppendLists
