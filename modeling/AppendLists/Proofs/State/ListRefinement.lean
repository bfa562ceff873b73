import AppendLists.Proofs.Codec.Fixed
import AppendLists.Proofs.State.ListMap
import AppendLists.State.List

namespace AppendLists

/-!
# List state is a map of lists

Handles on one append partition, together with compaction passes over it, act on a map of lists.
Nothing of the layers in between shows: neither the addresses nor the written form, neither operands
still to be combined nor the absence of empty lists.

* `ListCall`, `ListOp`, `ListSystem`: calls on handles and passes, and what they act on;
* `ListCall.spec`, `ListSpec.Step`, `ListSpec.Run`: the same on a map of lists;
* `MemoryStore.Keeps`: the invariant, kept by every call on the store;
* `ListCall.realizes`, `ListSystem.step_refines`: one step;
* `ListSystem.run_refines`: a whole run.
-/

variable {α : Type}

/-! ### Calls and passes -/

/-- A call on a handle. -/
inductive ListCall (α : Type) where
  /-- Point at a key. -/
  | setKey (key : Part)
  /-- Point at a namespace. -/
  | setNamespace (ns : Part)
  /-- Append one element. -/
  | add (x : α)
  /-- Append several elements. -/
  | addAll (xs : List α)
  /-- Replace the list. -/
  | update (xs : List α)
  /-- Remove the list. -/
  | clear
  /-- Move the lists of several namespaces behind that of another. -/
  | mergeNamespaces (target : Part) (sources : List Part)
  /-- Read the list. -/
  | get
  /-- Read the stored bytes. -/
  | getRaw

/-- The answer to a call. -/
inductive ListReply (α : Type) where
  /-- No news. -/
  | done
  /-- A list. -/
  | list (xs : List α)
  /-- Stored bytes. -/
  | raw (value : Option Bytes)
  /-- The report of a move. -/
  | moved (stats : MoveStats)
deriving DecidableEq

/-- The call on a handle, which may point elsewhere afterwards. -/
def ListCall.run (h : ListState α) :
    ListCall α → Call MemoryStore StateError (ListReply α × ListState α)
  | .setKey key => do
    let h' ← Call.ofExcept (h.setKey key)
    return (.done, h')
  | .setNamespace ns => do
    let h' ← Call.ofExcept (h.setNamespace ns)
    return (.done, h')
  | .add x => do
    h.add x
    return (.done, h)
  | .addAll xs => do
    h.addAll xs
    return (.done, h)
  | .update xs => do
    h.update xs
    return (.done, h)
  | .clear => do
    h.clear
    return (.done, h)
  | .mergeNamespaces target sources => do
    let stats ← h.mergeNamespaces target sources
    return (.moved stats, h)
  | .get => do
    let xs ← h.get
    return (.list xs, h)
  | .getRaw => do
    let value ← h.getRaw
    return (.raw value, h)

/-- A call on one of the handles, or a pass over the partition. -/
inductive ListOp (α : Type) where
  /-- A call on a handle. -/
  | call (i : Nat) (c : ListCall α)
  /-- A pass, with a filter for the elements or without. -/
  | compact (f : Option (α → Option α))

/-- A store and the handles to a state in it. -/
structure ListSystem (α : Type) where
  /-- The store. -/
  store : MemoryStore
  /-- The handles by number. -/
  handles : Nat → ListState α

namespace ListSystem

/-- New handles to a state of which nothing has been written. -/
def start (codec : Codec α) (name : String) (m : Nat) (s : MemoryStore) : ListSystem α :=
  ⟨s, fun _ => ⟨.fresh name (KeyBuilder.composite m) m, codec⟩⟩

/-- One call or pass. -/
def step (codec : Codec α) (name : String) (sys : ListSystem α) :
    ListOp α → Except StateError (ListReply α) × ListSystem α
  | .call i c =>
    match c.run (sys.handles i) sys.store with
    | (.ok (reply, h), s) => (.ok reply, ⟨s, fun j => if j = i then h else sys.handles j⟩)
    | (.error e, s) => (.error e, { sys with store := s })
  | .compact f =>
    let filter := (f.map (listPass codec)).map PureFilter.toFilter
    let (r, s, ()) := AppendLists.compact name filter (sys.store, ())
    (r.map fun _ => .done, { sys with store := s })

/-- Calls and passes in turn, with their answers. -/
def run (codec : Codec α) (name : String) :
    List (ListOp α) → ListSystem α → List (Except StateError (ListReply α)) × ListSystem α
  | [], sys => ([], sys)
  | op :: ops, sys =>
    let (reply, sys) := step codec name sys op
    let (replies, sys) := run codec name ops sys
    (reply :: replies, sys)

end ListSystem

/-! ### The same on a map of lists -/

/-- What a handle points at. -/
structure Pointer where
  /-- The serialized key, once there is one. -/
  key : Option Bytes
  /-- The serialized namespace. -/
  ns : Bytes
deriving DecidableEq

/-- The key, without which there is no list. -/
def Pointer.current (p : Pointer) : Except StateError Bytes :=
  match p.key with
  | some key => .ok key
  | none => .error .keyNotSet

/-- What a call does to a map of lists. -/
def ListCall.spec (codec : Codec α) (p : Pointer) (lists : ListMap α) :
    ListCall α → Except StateError (ListReply α × Pointer × ListMap α)
  | .setKey key => do
    let key ← key.serialize
    return (.done, { p with key := some key }, lists)
  | .setNamespace ns => do
    let ns ← ns.serialize
    return (.done, { p with ns }, lists)
  | .add x => do
    let _ ← codec.encode x
    let key ← p.current
    return (.done, p, lists.append key p.ns [x])
  | .addAll [] => return (.done, p, lists)
  | .addAll xs => do
    let _ ← encodeList codec xs
    let key ← p.current
    return (.done, p, lists.append key p.ns xs)
  | .update xs => do
    let key ← p.current
    let _ ← encodeList codec xs
    return (.done, p, lists.set key p.ns xs)
  | .clear => do
    let key ← p.current
    return (.done, p, lists.set key p.ns [])
  | .mergeNamespaces _ [] => return (.moved .none, p, lists)
  | .mergeNamespaces target sources => do
    let target ← target.serialize
    let key ← p.current
    let sources ← sources.mapM Part.serialize
    let (lists, stats) := lists.move codec key target sources .none
    return (.moved stats, p, lists)
  | .get => do
    let key ← p.current
    return (.list (lists key p.ns), p, lists)
  | .getRaw => do
    let key ← p.current
    return (.raw (written codec (lists key p.ns)), p, lists)

/-- A map of lists and what the handles point at. -/
structure ListSpec (α : Type) where
  /-- The lists. -/
  lists : ListMap α
  /-- The pointers by number. -/
  pointers : Nat → Pointer

namespace ListSpec

/-- No elements, and no keys yet. -/
def start : ListSpec α := ⟨ListMap.empty, fun _ => ⟨none, []⟩⟩

/-- One call or pass. A pass fails if and only if some element that stays cannot be written. -/
inductive Step (codec : Codec α) :
    ListOp α → ListSpec α → Except StateError (ListReply α) → ListSpec α → Prop where
  /-- A call that answers. -/
  | answered {i : Nat} {c : ListCall α} {spec : ListSpec α} {reply : ListReply α} {p : Pointer}
      {lists : ListMap α}
      (h : c.spec codec (spec.pointers i) spec.lists = .ok (reply, p, lists)) :
      Step codec (.call i c) spec (.ok reply)
        ⟨lists, fun j => if j = i then p else spec.pointers j⟩
  /-- A call that fails. -/
  | refused {i : Nat} {c : ListCall α} {spec : ListSpec α} {e : StateError}
      (h : c.spec codec (spec.pointers i) spec.lists = .error e) :
      Step codec (.call i c) spec (.error e) spec
  /-- A pass without a filter. -/
  | folded (spec : ListSpec α) : Step codec (.compact none) spec (.ok .done) spec
  /-- A pass that filters every list. -/
  | filtered {f : α → Option α} {spec : ListSpec α}
      (h : ∀ key ns, ∀ y ∈ spec.lists.filterMap f key ns, codec.Writes y) :
      Step codec (.compact (some f)) spec (.ok .done) { spec with lists := spec.lists.filterMap f }
  /-- A pass that fails. -/
  | failed {f : α → Option α} {spec : ListSpec α} (e : StateError)
      (h : ¬ ∀ key ns, ∀ y ∈ spec.lists.filterMap f key ns, codec.Writes y) :
      Step codec (.compact (some f)) spec (.error e) spec

/-- Calls and passes in turn, with their answers. -/
inductive Run (codec : Codec α) :
    List (ListOp α) → ListSpec α → List (Except StateError (ListReply α)) → ListSpec α → Prop where
  /-- Nothing more. -/
  | nil (spec : ListSpec α) : Run codec [] spec [] spec
  /-- One step and then the others. -/
  | cons {op : ListOp α} {ops : List (ListOp α)} {spec spec' spec'' : ListSpec α}
      {reply : Except StateError (ListReply α)} {replies : List (Except StateError (ListReply α))}
      (hstep : Step codec op spec reply spec') (hrun : Run codec ops spec' replies spec'') :
      Run codec (op :: ops) spec (reply :: replies) spec''

end ListSpec

/-! ### The invariant of the store -/

/-- A store holds a map of lists in a partition. -/
def MemoryStore.Keeps (codec : Codec α) (name : String) (m : Nat) (lists : ListMap α)
    (s : MemoryStore) : Prop :=
  ∃ p, s.partition name = .ok p ∧ p.Holds codec m lists s.nextVersion

namespace MemoryStore.Keeps

variable {codec : Codec α} {name : String} {m : Nat} {lists : ListMap α} {s : MemoryStore}
  {key ns : Bytes} {xs : List α} {bs : Bytes}

/-- A new partition holds no elements. -/
theorem of_create {s₀ : MemoryStore}
    (h : MemoryStore.create name (some (.stringAppend delimiter)) s₀ = (.ok (), s)) :
    s.Keeps codec name m ListMap.empty := by
  obtain ⟨hc, rfl⟩ := create_eq_ok h
  exact ⟨_, partition_of_found hc (by simp), .empty codec m _⟩

/-- A store keeps what the partition that is set holds. -/
theorem setPartition (hc : s.closed = false) {p : Partition}
    (hp : p.Holds codec m lists s.nextVersion) : (s.setPartition name p).Keeps codec name m lists :=
  ⟨p, partition_of_found hc (by simp), hp⟩

/-- A get answers with what is written for the list. -/
theorem get_run (h : s.Keeps codec name m lists) (hkey : ShortKey key) (ns : Bytes) :
    Store.get name (address m key ns) s = (.ok (written codec (lists key ns)), s) := by
  obtain ⟨p, hp, hholds⟩ := h
  rw [← hholds.value key ns hkey]
  exact MemoryStore.get_run hp _

/-- Putting a written list sets the list. -/
theorem put_run (hc : codec.Appending) (h : s.Keeps codec name m lists) (hkey : ShortKey key)
    (ns : Bytes) (hne : xs ≠ []) (hbs : encodeList codec xs = .ok bs) :
    ∃ s', Store.put name (address m key ns) bs s = (.ok (), s') ∧
      s'.Keeps codec name m (lists.set key ns xs) := by
  obtain ⟨p, hp, hholds⟩ := h
  refine ⟨_, MemoryStore.put_run hp _ _, ?_⟩
  exact setPartition (s := s.bumped) (partition_eq_ok_iff.1 hp).1 (hholds.put hc hkey hne hbs)

/-- A delete empties the list. -/
theorem delete_run (h : s.Keeps codec name m lists) (hkey : ShortKey key) (ns : Bytes) :
    ∃ s', Store.delete name (address m key ns) s = (.ok (), s') ∧
      s'.Keeps codec name m (lists.set key ns []) := by
  obtain ⟨p, hp, hholds⟩ := h
  refine ⟨_, MemoryStore.delete_run hp _, ?_⟩
  exact setPartition (partition_eq_ok_iff.1 hp).1 (hholds.drop hkey)

/-- Merging a written list appends it to the list. -/
theorem merge_run (hc : codec.Appending) (h : s.Keeps codec name m lists) (hkey : ShortKey key)
    (ns : Bytes) (hne : xs ≠ []) (hbs : encodeList codec xs = .ok bs) :
    ∃ s', Store.merge name (address m key ns) bs s = (.ok (), s') ∧
      s'.Keeps codec name m (lists.append key ns xs) := by
  obtain ⟨p, hp, hholds⟩ := h
  refine ⟨_, MemoryStore.merge_run hp hholds.operator _ _, ?_⟩
  exact setPartition (s := s.bumped) (partition_eq_ok_iff.1 hp).1 (hholds.queue hc hkey hne hbs)

/-- One source of a move. -/
theorem moveValue_run (hc : codec.Conforming) (h : s.Keeps codec name m lists)
    (hkey : ShortKey key) (target source : Bytes) (stats : MoveStats) :
    ∃ s', moveValue name (address m key target) (address m key source) stats s
        = (.ok (ListMap.move codec key target [source] lists stats).2, s') ∧
      s'.Keeps codec name m (ListMap.move codec key target [source] lists stats).1 := by
  have hget := Call.attempting_of_ok .mergingNamespaces (h.get_run hkey source)
  unfold moveValue
  rw [Call.bind_of_ok hget]
  by_cases hnil : lists key source = []
  · rw [hnil, written_nil, ListMap.move, if_pos hnil]
    exact ⟨s, rfl, h⟩
  · -- the source is removed before it is merged, also where it is the target
    rw [ListMap.move, if_neg hnil]
    obtain ⟨p, hp, hholds⟩ := h
    obtain ⟨bs, hbs, hw⟩ := exists_written hc.appending hnil (hholds.writes key source)
    obtain ⟨s₁, hdelete, h₁⟩ := delete_run ⟨p, hp, hholds⟩ hkey source
    obtain ⟨s₂, hmerge, h₂⟩ := h₁.merge_run hc.appending hkey target hnil hbs
    obtain ⟨b, bs', rfl⟩ := List.exists_cons_of_ne_nil (hc.encodeList_ne_nil hnil hbs)
    refine ⟨s₂, ?_, h₂⟩
    rw [hw]
    show (Call.attempting _ (Store.delete name _) >>= _) s = _
    rw [Call.bind_of_ok (Call.attempting_of_ok .mergingNamespaces hdelete),
      Call.bind_of_ok (Call.attempting_of_ok .mergingNamespaces hmerge)]
    simp only [ListMap.move, hw, Option.getD_some]
    rfl

/-- Several sources in turn. -/
theorem moveValues_run (hc : codec.Conforming) (h : s.Keeps codec name m lists)
    (hkey : ShortKey key) (target : Bytes) (sources : List Bytes) (stats : MoveStats) :
    ∃ s', moveValues name (address m key target) (sources.map (address m key)) stats s
        = (.ok (ListMap.move codec key target sources lists stats).2, s') ∧
      s'.Keeps codec name m (ListMap.move codec key target sources lists stats).1 := by
  induction sources generalizing lists s stats with
  | nil => exact ⟨s, rfl, h⟩
  | cons source sources ih =>
    obtain ⟨s₁, hrun, h₁⟩ := h.moveValue_run hc hkey target source stats
    obtain ⟨s₂, hrest, h₂⟩ := ih h₁ (ListMap.move codec key target [source] lists stats).2
    rw [← ListMap.move_cons] at hrest h₂
    refine ⟨s₂, ?_, h₂⟩
    rw [List.map_cons, moveValues, Call.bind_of_ok hrun, hrest]

/-- A pass without a filter changes no list. -/
theorem fold_run (h : s.Keeps codec name m lists) :
    ∃ stats s', AppendLists.compact name none (s, ()) = (.ok stats, s', ()) ∧
      s'.Keeps codec name m lists := by
  obtain ⟨p, hp, hholds⟩ := h
  obtain ⟨ds, hds, hafter⟩ := hholds.fold
  have hrun := MemoryStore.compact_run hp none ()
  rw [hds] at hrun
  simp only [commit_run hp] at hrun
  exact ⟨_, _, hrun, setPartition (partition_eq_ok_iff.1 hp).1 (hafter _)⟩

/-- A pass makes of every list another one if the filter does so with what is stored. -/
theorem pass_run_of_outcome (hc : codec.Appending) (h : s.Keeps codec name m lists) {filter : PureFilter}
    {lists' : ListMap α} (habsent : filter.outcome none = .ok none)
    (houtcome : ∀ key ns, filter.outcome (written codec (lists key ns))
      = .ok (written codec (lists' key ns)))
    (hwrites : ∀ key ns, ∀ x ∈ lists' key ns, codec.Writes x) :
    ∃ stats s', AppendLists.compact name (some filter.toFilter) (s, ()) = (.ok stats, s', ()) ∧
      s'.Keeps codec name m lists' := by
  obtain ⟨p, hp, hholds⟩ := h
  obtain ⟨ds, hds, hafter⟩ := hholds.pass_of_outcome hc habsent houtcome hwrites
  have hrun := MemoryStore.compact_run hp (some filter) ()
  rw [hds] at hrun
  simp only [commit_run hp] at hrun
  exact ⟨_, _, hrun, setPartition (partition_eq_ok_iff.1 hp).1 (hafter _)⟩

/-- Every element of a list that is kept can be written. -/
theorem writes (h : s.Keeps codec name m lists) (key ns : Bytes) :
    ∀ x ∈ lists key ns, codec.Writes x := by
  obtain ⟨_, _, hholds⟩ := h
  exact hholds.writes key ns

/-- A pass filters every list if every survivor can be written. -/
theorem pass_run (hc : codec.Conforming) (h : s.Keeps codec name m lists) {f : α → Option α}
    (hwrites : ∀ key ns, ∀ y ∈ lists.filterMap f key ns, codec.Writes y) :
    ∃ stats s', AppendLists.compact name (some (listPass codec f).toFilter) (s, ())
        = (.ok stats, s', ()) ∧
      s'.Keeps codec name m (lists.filterMap f) := by
  apply h.pass_run_of_outcome hc.appending rfl
  · exact fun key ns => hc.outcome_listPass (h.writes key ns) (hwrites key ns)
  · exact hwrites

/-- A pass fails without a trace if some survivor cannot be written. -/
theorem pass_run_of_not_writes (hc : codec.Conforming) (h : s.Keeps codec name m lists)
    {f : α → Option α}
    (hwrites : ¬ ∀ key ns, ∀ y ∈ lists.filterMap f key ns, codec.Writes y) :
    ∃ e, AppendLists.compact name (some (listPass codec f).toFilter) (s, ())
      = (.error e, s, ()) := by
  obtain ⟨p, hp, hholds⟩ := h
  have hrun := MemoryStore.compact_run hp (some (listPass codec f)) ()
  cases hds : PureFilter.decisions (some (listPass codec f)) p.captured with
  | error e =>
    rw [hds] at hrun
    exact ⟨e, hrun⟩
  | ok ds =>
    -- a pass that decided has written every survivor
    exact absurd (hholds.writes_of_decisions hc hds) hwrites

end MemoryStore.Keeps

/-! ### One call on a handle -/

namespace Pointer

/-- The handle that points there. -/
def handle (codec : Codec α) (name : String) (m : Nat) (p : Pointer) : ListState α where
  context :=
    { partition := name
      builder := KeyBuilder.composite m
      maxParallelism := m
      current := p.key.map fun key => ⟨keyGroup key m, key⟩
      ns := p.ns }
  codec := codec

/-- Whether the key, if there is one, has a possible length. -/
def Short (p : Pointer) : Prop := ∀ key, p.key = some key → ShortKey key

variable {codec : Codec α} {name : String} {m : Nat} {p : Pointer}

/-- There is a key to work with once it was set. -/
theorem current_eq_ok_iff {key : Bytes} : p.current = .ok key ↔ p.key = some key := by
  unfold current
  cases p.key <;> simp

/-- The storage key of a namespace is the address of the current key in it. -/
theorem keyIn_handle (p : Pointer) (ns : Bytes) :
    (p.handle codec name m).context.keyIn ns = p.current.map fun key => address m key ns := by
  obtain ⟨key, _⟩ := p
  cases key <;> rfl

end Pointer

/-- Whether a call points a handle only at keys of a possible length. -/
def ListCall.Short : ListCall α → Prop
  | .setKey key => ∀ bytes, key.serialize = .ok bytes → ShortKey bytes
  | _ => True

/-- A call comes out as on a map of lists: it fails with the same error and without a trace, or
gives the same answer and leaves a store that holds the lists as they are then. -/
def Realizes (codec : Codec α) (name : String) (m : Nat) (s : MemoryStore)
    (spec : Except StateError (ListReply α × Pointer × ListMap α))
    (result : Except StateError (ListReply α × ListState α) × MemoryStore) : Prop :=
  match spec with
  | .error e => result = (.error e, s)
  | .ok (reply, p, lists) =>
    p.Short ∧ ∃ s', result = (.ok (reply, p.handle codec name m), s') ∧
      s'.Keeps codec name m lists

namespace Realizes

variable {codec : Codec α} {name : String} {m : Nat} {s : MemoryStore} {p : Pointer}
  {lists : ListMap α}

/-- A call that answers, and leaves the lists that it should, realizes what is asked for. -/
theorem done {β : Type} {call : Call MemoryStore StateError β} {b : β} {s' : MemoryStore}
    (hp : p.Short) (hcall : call s = (.ok b, s')) (h : s'.Keeps codec name m lists)
    (reply : β → ListReply α) :
    Realizes codec name m s (.ok (reply b, p, lists))
      ((call >>= fun b => return (reply b, p.handle codec name m)) s) :=
  ⟨hp, s', by rw [Call.bind_of_ok hcall]; rfl, h⟩

/-- What can fail before the store is called fails alike on both sides. -/
theorem check {β : Type} (r : Except StateError β)
    {spec : β → Except StateError (ListReply α × Pointer × ListMap α)}
    {next : β → Call MemoryStore StateError (ListReply α × ListState α)}
    (h : ∀ b, r = .ok b → Realizes codec name m s (spec b) (next b s)) :
    Realizes codec name m s (r >>= spec) ((Call.ofExcept r >>= next) s) := by
  cases hr : r with
  | error e => rfl
  | ok b => exact h b hr

/-- Without a key a call fails; with one it goes to the address of the key. -/
theorem locate (hp : p.Short) (ns : Bytes)
    {spec : Bytes → Except StateError (ListReply α × Pointer × ListMap α)}
    {next : Bytes → Call MemoryStore StateError (ListReply α × ListState α)}
    (h : ∀ key, ShortKey key → Realizes codec name m s (spec key) (next (address m key ns) s)) :
    Realizes codec name m s (p.current >>= spec)
      ((Call.ofExcept ((p.handle codec name m).context.keyIn ns) >>= next) s) := by
  rw [Pointer.keyIn_handle]
  cases hcur : p.current with
  | error e => rfl
  | ok key => exact h key (hp key (Pointer.current_eq_ok_iff.1 hcur))

end Realizes

namespace ListCall

variable {codec : Codec α} {name : String} {m : Nat} {s : MemoryStore} {p : Pointer}
  {lists : ListMap α}

/-- Setting a key points elsewhere, or fails as serializing the key does. -/
theorem realizes_setKey (h : s.Keeps codec name m lists) {key : Part}
    (hshort : (ListCall.setKey (α := α) key).Short) :
    Realizes codec name m s ((ListCall.setKey key).spec codec p lists)
      ((ListCall.setKey key).run (p.handle codec name m) s) := by
  have hset : (p.handle codec name m).setKey key
      = key.serialize.map fun bytes => ({ p with key := some bytes } : Pointer).handle codec name m
      := by
    unfold ListState.setKey StateContext.setKey
    cases key.serialize <;> rfl
  rw [spec, run, hset]
  cases hk : key.serialize with
  | error e => rfl
  | ok bytes =>
    refine ⟨?_, s, rfl, h⟩
    rintro _ ⟨⟩
    exact hshort bytes hk

/-- So does setting a namespace. -/
theorem realizes_setNamespace (h : s.Keeps codec name m lists) (hp : p.Short) (ns : Part) :
    Realizes codec name m s ((ListCall.setNamespace ns).spec codec p lists)
      ((ListCall.setNamespace ns).run (p.handle codec name m) s) := by
  have hset : (p.handle codec name m).setNamespace ns
      = ns.serialize.map fun bytes => ({ p with ns := bytes } : Pointer).handle codec name m := by
    unfold ListState.setNamespace StateContext.setNamespace
    cases ns.serialize <;> rfl
  rw [spec, run, hset]
  cases ns.serialize with
  | error e => rfl
  | ok bytes => exact ⟨hp, s, rfl, h⟩

/-- Merging a written list appends it. -/
theorem realizes_mergeFragment (hc : codec.Appending) (h : s.Keeps codec name m lists)
    (hp : p.Short) {xs : List α} {bs : Bytes} (hne : xs ≠ []) (hbs : encodeList codec xs = .ok bs) :
    Realizes codec name m s
      (do
        let key ← p.current
        return (.done, p, lists.append key p.ns xs))
      ((do
        (p.handle codec name m).mergeFragment bs
        return (ListReply.done, p.handle codec name m)) s) := by
  unfold ListState.mergeFragment
  rw [Call.bind_assoc]
  apply Realizes.locate hp
  intro key hkey
  obtain ⟨s', hrun, h'⟩ := h.merge_run hc hkey p.ns hne hbs
  exact Realizes.done hp (Call.attempting_of_ok .appendingToList hrun) h' fun () => .done

/-- An element is appended to the list. -/
theorem realizes_add (hc : codec.Appending) (h : s.Keeps codec name m lists) (hp : p.Short) (x : α) :
    Realizes codec name m s ((ListCall.add x).spec codec p lists)
      ((ListCall.add x).run (p.handle codec name m) s) := by
  rw [spec, run, ListState.add, Call.bind_assoc]
  apply Realizes.check
  intro bs hbs
  rw [← encodeList_singleton] at hbs
  exact realizes_mergeFragment hc h hp (by simp) hbs

/-- So are several. -/
theorem realizes_addAll (hc : codec.Appending) (h : s.Keeps codec name m lists) (hp : p.Short)
    (xs : List α) :
    Realizes codec name m s ((ListCall.addAll xs).spec codec p lists)
      ((ListCall.addAll xs).run (p.handle codec name m) s) := by
  cases xs with
  | nil => exact ⟨hp, s, rfl, h⟩
  | cons x xs =>
    rw [spec, run, ListState.addAll, if_neg (by simp), Call.bind_assoc]
    · apply Realizes.check
      intro bs hbs
      exact realizes_mergeFragment hc h hp (by simp) hbs
    · simp

/-- The list is emptied. -/
theorem realizes_clear (h : s.Keeps codec name m lists) (hp : p.Short) :
    Realizes codec name m s ((ListCall.clear).spec codec p lists)
      ((ListCall.clear).run (p.handle codec name m) s) := by
  rw [spec, run, ListState.clear, Call.bind_assoc]
  apply Realizes.locate hp
  intro key hkey
  obtain ⟨s', hrun, h'⟩ := h.delete_run hkey p.ns
  exact Realizes.done hp (Call.attempting_of_ok .clearingList hrun) h' fun () => .done

/-- The list is replaced. -/
theorem realizes_update (hc : codec.Appending) (h : s.Keeps codec name m lists) (hp : p.Short)
    (xs : List α) :
    Realizes codec name m s ((ListCall.update xs).spec codec p lists)
      ((ListCall.update xs).run (p.handle codec name m) s) := by
  by_cases hxs : xs = []
  · -- the empty list is stored by storing nothing
    subst hxs
    have hclear := realizes_clear h hp
    exact hclear
  · rw [spec, run, ListState.update, if_neg (by simpa using hxs), Call.bind_assoc]
    apply Realizes.locate hp
    intro key hkey
    rw [Call.bind_assoc]
    apply Realizes.check
    intro bs hbs
    obtain ⟨s', hrun, h'⟩ := h.put_run hc hkey p.ns hxs hbs
    exact Realizes.done hp (Call.attempting_of_ok .updatingList hrun) h' fun () => .done

/-- The raw value is what is written for the list. -/
theorem realizes_getRaw (h : s.Keeps codec name m lists) (hp : p.Short) :
    Realizes codec name m s ((ListCall.getRaw).spec codec p lists)
      ((ListCall.getRaw).run (p.handle codec name m) s) := by
  rw [spec, run, ListState.getRaw, Call.bind_assoc]
  apply Realizes.locate hp
  intro key hkey
  have hrun := Call.attempting_of_ok .readingList (h.get_run hkey p.ns)
  exact Realizes.done hp hrun h .raw

/-- The list is read as it was written. -/
theorem realizes_get (hc : codec.Conforming) (h : s.Keeps codec name m lists) (hp : p.Short) :
    Realizes codec name m s ((ListCall.get).spec codec p lists)
      ((ListCall.get).run (p.handle codec name m) s) := by
  rw [spec, run, ListState.get, ListState.getRaw, Call.bind_assoc, Call.bind_assoc]
  apply Realizes.locate hp
  intro key hkey
  -- the list is read back because all of its elements were written
  have hwrites := h.writes key p.ns
  have hread := Call.attempting_of_ok .readingList (h.get_run hkey p.ns)
  show Realizes codec name m s _ ((Call.attempting _ (Store.get name (address m key p.ns)) >>=
    fun raw => Call.ofExcept (decodeList codec raw) >>= _) s)
  rw [Call.bind_of_ok hread, hc.decodeList_written hwrites]
  exact ⟨hp, s, rfl, h⟩

/-- The storage key in another namespace is the address of the key there. -/
theorem keyInNamespace_handle (p : Pointer) (ns : Part) :
    (p.handle codec name m).keyInNamespace ns = do
      let ns ← ns.serialize
      let key ← p.current
      return address m key ns := by
  unfold ListState.keyInNamespace
  cases ns.serialize with
  | error e => rfl
  | ok bytes => exact p.keyIn_handle bytes

/-- With a key, namespaces have storage keys if they have bytes. -/
theorem mapM_keyInNamespace {key : Bytes} (hkey : p.key = some key) (sources : List Part) :
    sources.mapM (p.handle codec name m).keyInNamespace
      = (sources.mapM Part.serialize).map (List.map (address m key)) := by
  induction sources with
  | nil => rfl
  | cons source sources ih =>
    rw [List.mapM_cons, List.mapM_cons, ih, keyInNamespace_handle,
      Pointer.current_eq_ok_iff.2 hkey]
    cases source.serialize with
    | error e => rfl
    | ok ns => cases sources.mapM Part.serialize <;> rfl

/-- The lists of the sources are moved to the target, one after the other. -/
theorem realizes_mergeNamespaces (hc : codec.Conforming) (h : s.Keeps codec name m lists)
    (hp : p.Short) (target : Part) (sources : List Part) :
    Realizes codec name m s ((ListCall.mergeNamespaces target sources).spec codec p lists)
      ((ListCall.mergeNamespaces target sources).run (p.handle codec name m) s) := by
  by_cases hnil : sources = []
  · subst hnil
    exact ⟨hp, s, rfl, h⟩
  · rw [spec, run, ListState.mergeNamespaces, if_neg (by simpa using hnil), keyInNamespace_handle]
    · -- both sides need the target, then the key, then the sources
      cases ht : target.serialize with
      | error e => rfl
      | ok targetNs =>
        cases hcur : p.current with
        | error e => rfl
        | ok key =>
          have hkey := Pointer.current_eq_ok_iff.1 hcur
          rw [mapM_keyInNamespace hkey]
          cases hs : sources.mapM Part.serialize with
          | error e => rfl
          | ok sourceNs =>
            obtain ⟨s', hrun, h'⟩ :=
              h.moveValues_run hc (hp key hkey) targetNs sourceNs MoveStats.none
            exact Realizes.done hp hrun h' .moved
    · simpa using hnil

/-- Every call on a handle comes out as on a map of lists. -/
theorem realizes (hc : codec.Conforming) (h : s.Keeps codec name m lists) (hp : p.Short)
    {c : ListCall α} (hshort : c.Short) :
    Realizes codec name m s (c.spec codec p lists) (c.run (p.handle codec name m) s) := by
  cases c with
  | setKey key => exact realizes_setKey h hshort
  | setNamespace ns => exact realizes_setNamespace h hp ns
  | add x => exact realizes_add hc.appending h hp x
  | addAll xs => exact realizes_addAll hc.appending h hp xs
  | update xs => exact realizes_update hc.appending h hp xs
  | clear => exact realizes_clear h hp
  | mergeNamespaces target sources => exact realizes_mergeNamespaces hc h hp target sources
  | get => exact realizes_get hc h hp
  | getRaw => exact realizes_getRaw h hp

end ListCall

/-! ### Steps and runs -/

/-- Whether a call points its handle only at a key of a possible length. -/
def ListOp.Short : ListOp α → Prop
  | .call _ c => c.Short
  | .compact _ => True

/-- What calls and passes preserve: the store holds the lists, and the handles point as they
should. -/
structure ListSystem.Refines (codec : Codec α) (name : String) (m : Nat) (sys : ListSystem α)
    (spec : ListSpec α) : Prop where
  /-- The store holds the lists. -/
  keeps : sys.store.Keeps codec name m spec.lists
  /-- The handles point where the pointers do. -/
  handles : ∀ i, sys.handles i = (spec.pointers i).handle codec name m
  /-- The keys have a possible length. -/
  short : ∀ i, (spec.pointers i).Short

namespace ListSystem

variable {codec : Codec α} {name : String} {m : Nat} {sys : ListSystem α} {spec : ListSpec α}

/-- A call on a handle does to the stored lists what it does to the map of lists. -/
theorem step_call_refines (hc : codec.Conforming) (h : sys.Refines codec name m spec) (i : Nat)
    {c : ListCall α} (hshort : c.Short) :
    ∃ spec', ListSpec.Step codec (.call i c) spec (sys.step codec name (.call i c)).1 spec' ∧
      (sys.step codec name (.call i c)).2.Refines codec name m spec' := by
  have hreal := c.realizes hc h.keeps (h.short i) hshort
  rw [← h.handles i] at hreal
  unfold step
  cases hspec : c.spec codec (spec.pointers i) spec.lists with
  | error e =>
    rw [hspec] at hreal
    have hrun : c.run (sys.handles i) sys.store = _ := hreal
    simp only [hrun]
    exact ⟨spec, .refused hspec, h⟩
  | ok result =>
    obtain ⟨reply, p, lists⟩ := result
    rw [hspec] at hreal
    obtain ⟨hp, s', hrun, hkeeps⟩ := hreal
    simp only [hrun]
    -- only the handle of the call may point elsewhere now
    refine ⟨_, .answered hspec, hkeeps, ?_, ?_⟩
    · intro j
      by_cases hj : j = i
      · simp [hj]
      · simp [hj, h.handles j]
    · intro j
      by_cases hj : j = i
      · simpa [hj] using hp
      · simpa [hj] using h.short j

/-- So does a pass, with a filter of elements or without one. -/
theorem step_compact_refines (hc : codec.Conforming) (h : sys.Refines codec name m spec)
    (f : Option (α → Option α)) :
    ∃ spec', ListSpec.Step codec (.compact f) spec (sys.step codec name (.compact f)).1 spec' ∧
      (sys.step codec name (.compact f)).2.Refines codec name m spec' := by
  unfold step
  cases f with
  | none =>
    obtain ⟨stats, s', hrun, hkeeps⟩ := h.keeps.fold_run
    simp only [Option.map_none, hrun]
    exact ⟨_, .folded spec, hkeeps, h.handles, h.short⟩
  | some f =>
    simp only [Option.map_some]
    by_cases hwrites : ∀ key ns, ∀ y ∈ spec.lists.filterMap f key ns, codec.Writes y
    · obtain ⟨stats, s', hrun, hkeeps⟩ := h.keeps.pass_run hc hwrites
      simp only [hrun]
      exact ⟨_, .filtered hwrites, hkeeps, h.handles, h.short⟩
    · obtain ⟨e, hrun⟩ := h.keeps.pass_run_of_not_writes hc hwrites
      simp only [hrun]
      exact ⟨spec, .failed e hwrites, h⟩

/-- Every call and every pass comes out as on a map of lists. -/
theorem step_refines (hc : codec.Conforming) (h : sys.Refines codec name m spec) {op : ListOp α}
    (hshort : op.Short) :
    ∃ spec', ListSpec.Step codec op spec (sys.step codec name op).1 spec' ∧
      (sys.step codec name op).2.Refines codec name m spec' := by
  cases op with
  | call i c => exact step_call_refines hc h i hshort
  | compact f => exact step_compact_refines hc h f

/-- So do any number of them, in turn. -/
theorem run_preserves_refines (hc : codec.Conforming) (h : sys.Refines codec name m spec)
    {ops : List (ListOp α)} (hshort : ∀ op ∈ ops, op.Short) :
    ∃ spec', ListSpec.Run codec ops spec (run codec name ops sys).1 spec' ∧
      (run codec name ops sys).2.Refines codec name m spec' := by
  induction ops generalizing sys spec with
  | nil => exact ⟨spec, .nil spec, h⟩
  | cons op ops ih =>
    obtain ⟨hop, hops⟩ := List.forall_mem_cons.1 hshort
    obtain ⟨spec₁, hstep, h₁⟩ := step_refines hc h hop
    obtain ⟨spec₂, hrun, h₂⟩ := ih h₁ hops
    exact ⟨spec₂, .cons hstep hrun, h₂⟩

end ListSystem

/-- A store shows a map of lists: every read of the partition is answered from it. -/
structure MemoryStore.Shows (codec : Codec α) (name : String) (m : Nat) (lists : ListMap α)
    (s : MemoryStore) : Prop where
  /-- At an address is the written form of the list, or nothing if it is empty. -/
  get : ∀ key ns, ShortKey key →
    (MemoryStore.get name (address m key ns) s).1 = .ok (written codec (lists key ns))
  /-- The partition has exactly the lists with elements. -/
  scan : ∃ entries, (MemoryStore.scan name s).1 = .ok entries ∧
    ∀ k v, (k, v) ∈ entries ↔ ∃ key ns, ShortKey key ∧ k = address m key ns ∧
      lists key ns ≠ [] ∧ encodeList codec (lists key ns) = .ok v

/-- A store that holds a map of lists shows it. -/
theorem MemoryStore.Keeps.shows {codec : Codec α} (hc : codec.Appending) {name : String} {m : Nat}
    {lists : ListMap α} {s : MemoryStore} (h : s.Keeps codec name m lists) :
    s.Shows codec name m lists where
  get key ns hkey := by
    have hrun : MemoryStore.get name (address m key ns) s = _ := h.get_run hkey ns
    rw [hrun]
  scan := by
    obtain ⟨p, hp, hholds⟩ := h
    refine ⟨p.resolved, by rw [MemoryStore.scan_run hp], ?_⟩
    intro k v
    rw [Partition.mem_resolved_iff]
    constructor
    · exact hholds.exists_list hc
    · rintro ⟨key, ns, hkey, rfl, hne, hbs⟩
      rw [hholds.value key ns hkey, written_of_encodeList hne hbs]

/-- **List state is a map of lists.** From a new append partition, calls on any number of handles
and passes over the partition give the answers that they give on a map of lists, and leave in the
partition what that map then has. -/
theorem ListSystem.run_refines {codec : Codec α} (hc : codec.Conforming) {name : String}
    {s₀ s : MemoryStore}
    (hcreate : MemoryStore.create name (some (.stringAppend delimiter)) s₀ = (.ok (), s)) (m : Nat)
    {ops : List (ListOp α)} (hshort : ∀ op ∈ ops, op.Short) :
    let result := run codec name ops (start codec name m s)
    ∃ spec, ListSpec.Run codec ops .start result.1 spec ∧
      (∀ i, result.2.handles i = (spec.pointers i).handle codec name m) ∧
      result.2.store.Shows codec name m spec.lists := by
  have hstart : (start codec name m s).Refines codec name m .start :=
    ⟨.of_create hcreate, fun _ => rfl, fun _ _ h => nomatch h⟩
  obtain ⟨spec, hrun, hspec⟩ := run_preserves_refines hc hstart hshort
  exact ⟨spec, hrun, hspec.handles, hspec.keeps.shows hc.appending⟩

/-- A list of numbers that one handle writes, a pass filters and another handle reads. -/
theorem ListSystem.run_numbers :
    let ops : List (ListOp UInt64) :=
      [.call 0 (.setKey .unit), .call 0 (.addAll [44, 7]), .compact (some fun n =>
        if n = 7 then none else some (n + 1)), .call 1 (.setKey .unit), .call 1 .get]
    let created := MemoryStore.create "p" (some (.stringAppend delimiter)) MemoryStore.empty
    Codec.u64.Conforming ∧ created.1 = .ok () ∧ (∀ op ∈ ops, op.Short) ∧
      (run Codec.u64 "p" ops (start Codec.u64 "p" 128 created.2)).1
        = [.ok .done, .ok .done, .ok .done, .ok .done, .ok (.list [45])] := by
  intro ops created
  have hcreate : created = (.ok (), created.2) := rfl
  have hunit : (ListCall.setKey (α := UInt64) .unit).Short := by
    intro bytes hbytes
    obtain rfl : [0xC0] = bytes := Except.ok.inj hbytes
    show 1 < 0x100000000
    decide
  have hshort : ∀ op ∈ ops, op.Short := by
    simpa [ops, ListOp.Short, ListCall.Short] using hunit
  obtain ⟨spec, hrun, -⟩ := run_refines Codec.conforming_u64 hcreate 128 hshort
  refine ⟨Codec.conforming_u64, rfl, hshort, ?_⟩
  generalize (run Codec.u64 "p" ops (start Codec.u64 "p" 128 created.2)).1 = replies at hrun ⊢
  -- the run is taken apart step by step; what the map of lists answers is computed
  simp only [ops] at hrun
  rcases hrun with _ | ⟨⟨⟨⟩⟩ | ⟨⟨⟩⟩, hrun⟩
  rcases hrun with _ | ⟨⟨⟨⟩⟩ | ⟨⟨⟩⟩, hrun⟩
  rcases hrun with _ | ⟨_ | _, hrun⟩
  · rcases hrun with _ | ⟨⟨⟨⟩⟩ | ⟨⟨⟩⟩, hrun⟩
    rcases hrun with _ | ⟨⟨⟨⟩⟩ | ⟨⟨⟩⟩, ⟨⟩⟩
    rfl
  · case failed e hfails => exact absurd (fun _ _ _ _ => ⟨_, rfl⟩) hfails

end AppendLists
