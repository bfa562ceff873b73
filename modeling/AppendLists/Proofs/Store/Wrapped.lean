import AppendLists.Proofs.Memory.Effect
import AppendLists.Proofs.Store.Merging

namespace AppendLists

/-!
# A wrapped memory store told by contents

A memory store inside a wrapper never queues an operand, and its passes go through plain calls. What
a caller can tell of it are contents all the same, and changes and passes do to them what they do to
the contents of a memory store that merges by itself.

* `Decision.content`, `PureFilter.content_decisions`: decisions told by keys and values;
* `MergeOnRead.contents`, `MergeOnRead.Sound`: what a caller can tell, and the invariant;
* `Mutation.call`, `MergeOnRead.call_effect`: a change has the effect it has on the contents, or
  fails where it has none;
* `MergeOnRead.commitWrites_run`: the writes of a pass settle the contents;
* `MergeOnRead.compact_of_decisions`: a pass filters the contents.
-/

/-- A change as a call on any store. -/
def Mutation.call {σ : Type} [Store σ] : Mutation → Call σ StorageError Unit
  | .create name op => Store.create name op
  | .put name key value => Store.put name key value
  | .merge name key operand => Store.merge name key operand
  | .delete name key => Store.delete name key

/-! ### Decisions told by keys and values -/

/-- What was captured of a key, apart from what the store keeps for itself. -/
def Captured.binding (c : Captured) : Bytes × Option Bytes := (c.key, c.value)

/-- What a decision says, apart from what the store keeps for itself. -/
def Decision.content (d : Decision) : (Bytes × Option Bytes) × Option Bytes :=
  (d.captured.binding, d.outcome)

namespace PureFilter

variable {filter : Option PureFilter}

/-- What a pure filter decides follows from keys and values alone. -/
theorem content_decisions (filter : Option PureFilter) (cs : List Captured) :
    (decisions filter cs).map (List.map Decision.content)
      = (cs.map Captured.binding).mapM fun b => (decide filter b.2).map fun o => (b, o) := by
  induction cs with
  | nil => rfl
  | cons c cs ih =>
    rw [List.map_cons, List.mapM_cons, ← ih]
    show _ = (decide filter c.value).map _ >>= _
    cases ho : decide filter c.value with
    | error e =>
      rw [decisions_cons_of_error ho]
      rfl
    | ok outcome =>
      rw [decisions_cons_of_ok ho]
      cases decisions filter cs <;> rfl

/-- Equal keys and values are decided alike. -/
theorem decisions_congr {cs cs' : List Captured}
    (h : cs.map Captured.binding = cs'.map Captured.binding) :
    (∃ e, decisions filter cs = .error e ∧ decisions filter cs' = .error e) ∨
      ∃ ds ds', decisions filter cs = .ok ds ∧ decisions filter cs' = .ok ds' ∧
        ds.map Decision.content = ds'.map Decision.content := by
  -- deciding looks at the content only, so both sides come to the same
  have hcs := content_decisions filter cs
  rw [h, ← content_decisions filter cs'] at hcs
  cases hds : decisions filter cs with
  | error e =>
    cases hds' : decisions filter cs' with
    | error e' =>
      rw [hds, hds'] at hcs
      obtain rfl : e = e' := Except.error.inj hcs
      exact .inl ⟨e, rfl, rfl⟩
    | ok ds' =>
      rw [hds, hds'] at hcs
      cases hcs
  | ok ds =>
    cases hds' : decisions filter cs' with
    | error e' =>
      rw [hds, hds'] at hcs
      cases hcs
    | ok ds' =>
      rw [hds, hds'] at hcs
      exact .inr ⟨ds, ds', rfl, rfl, Except.ok.inj hcs⟩

end PureFilter

/-- What is counted does not depend on the versions. -/
theorem countP_eq_countP_content (test : Decision → Bool)
    (test' : (Bytes × Option Bytes) × Option Bytes → Bool) (h : ∀ d, test d = test' d.content)
    (ds : List Decision) : ds.countP test = (ds.map Decision.content).countP test' := by
  rw [List.countP_map]
  exact List.countP_congr fun d _ => by rw [Function.comp_apply, h]

/-- Decisions that say the same are counted the same. -/
theorem countP_congr_of_content {ds ds' : List Decision}
    (h : ds.map Decision.content = ds'.map Decision.content) :
    ds.length = ds'.length ∧ ds.countP (·.removes) = ds'.countP (·.removes)
      ∧ ds.countP (·.rewrites) = ds'.countP (·.rewrites) := by
  have hremoves := countP_eq_countP_content (·.removes) (fun c => c.2.isNone) fun _ => rfl
  have hrewrites := countP_eq_countP_content (·.rewrites) (fun c => c.2.isSome && c.2 ≠ c.1.2)
    fun _ => rfl
  refine ⟨by simpa using congrArg List.length h, ?_, ?_⟩
  · rw [hremoves, hremoves, h]
  · rw [hrewrites, hrewrites, h]

/-- In a sound partition what is captured is what is listed. -/
theorem Partition.Sound.bindings_captured {p : Partition} {next : Nat} (h : p.Sound next) :
    p.captured.map Captured.binding = p.resolved.map fun (key, value) => (key, some value) := by
  have hall : ∀ q ∈ p.entries.pairs, (p.resolve q.2).isSome := fun q hq =>
    h.resolve_isSome (Table.mem_pairs_iff.1 hq)
  unfold captured resolved
  -- along any part of the entries, none of which is left out of the listing
  generalize p.entries.pairs = l at hall
  induction l with
  | nil => rfl
  | cons q l ih =>
    obtain ⟨key, e⟩ := q
    obtain ⟨hq, hl⟩ := List.forall_mem_cons.1 hall
    obtain ⟨value, hvalue⟩ := Option.isSome_iff_exists.1 hq
    have hvalue : p.resolve e = some value := hvalue
    simp only [List.map_cons, List.filterMap_cons, hvalue, Option.map_some, Captured.binding, ih hl]

/-! ### Contents after several decisions -/

namespace Contents

/-- The contents with the outcome of each decision. -/
def settle (c : Contents) (name : String) : List Decision → Contents
  | [] => c
  | d :: ds => (c.setValue name d.captured.key d.outcome).settle name ds

variable {c : Contents} {name : String} {ds : List Decision}

/-- Settling does not change the ways of merging. -/
@[simp] theorem operator_settle (c : Contents) (name : String) (ds : List Decision) :
    (c.settle name ds).operator = c.operator := by
  induction ds generalizing c with
  | nil => rfl
  | cons d ds ih => exact ih _

/-- A key that nothing was decided about keeps its value. -/
theorem value_settle_of_not_mem {name' : String} {key : Bytes}
    (h : name' = name → key ∉ ds.map (·.captured.key)) :
    (c.settle name ds).value name' key = c.value name' key := by
  induction ds generalizing c with
  | nil => rfl
  | cons d ds ih =>
    have hne : ¬ (name' = name ∧ key = d.captured.key) := fun ⟨hname, hkey⟩ =>
      h hname (hkey ▸ List.mem_cons_self)
    rw [settle, ih fun hname hmem => h hname (List.mem_cons_of_mem _ hmem), setValue]
    exact if_neg hne

/-- A key has the value that was decided on. -/
theorem value_settle_of_mem {d : Decision} (hnodup : (ds.map (·.captured.key)).Nodup)
    (hd : d ∈ ds) : (c.settle name ds).value name d.captured.key = d.outcome := by
  induction ds generalizing c with
  | nil => cases hd
  | cons d' ds ih =>
    obtain ⟨hd', hds⟩ := List.nodup_cons.1 hnodup
    rcases List.mem_cons.1 hd with rfl | hd
    · rw [settle, value_settle_of_not_mem fun _ => hd', setValue]
      exact if_pos ⟨rfl, rfl⟩
    · exact ih hds hd

/-- Decisions about all that a partition lists make of the contents what the filter does. -/
theorem settle_eq_pass {filter : Option PureFilter} {cs : List Captured}
    {entries : List (Bytes × Bytes)} (hds : PureFilter.decisions filter cs = .ok ds)
    (hcs : cs.map Captured.binding = entries.map fun (key, value) => (key, some value))
    (hnodup : (entries.map (·.1)).Nodup)
    (hentries : ∀ key value, (key, value) ∈ entries ↔ c.value name key = some value) :
    c.settle name ds = c.pass name filter := by
  have hcaptured := PureFilter.captured_of_decisions hds
  have hkeys : ds.map (·.captured.key) = entries.map (·.1) := by
    have h := congrArg (List.map Prod.fst) hcs
    rw [← hcaptured, List.map_map, List.map_map, List.map_map] at h
    exact h
  apply Contents.ext
  · rw [operator_settle]
    rfl
  · funext name' key
    by_cases hname : name' = name
    · subst hname
      show _ = if name' = name' then _ else _
      rw [if_pos rfl]
      cases hvalue : c.value name' key with
      | none =>
        -- a key without a value is not listed, and nothing is decided about it
        have hkey : key ∉ ds.map (·.captured.key) := by
          rw [hkeys]
          intro hmem
          obtain ⟨⟨key', value⟩, hentry, rfl⟩ := List.mem_map.1 hmem
          rw [(hentries _ _).1 hentry] at hvalue
          cases hvalue
        rw [value_settle_of_not_mem fun _ => hkey, hvalue]
        rfl
      | some value =>
        have hbinding : (key, some value) ∈ cs.map Captured.binding := by
          rw [hcs]
          exact List.mem_map.2 ⟨(key, value), (hentries key value).2 hvalue, rfl⟩
        rw [← hcaptured, List.map_map] at hbinding
        obtain ⟨d, hd, hd'⟩ := List.mem_map.1 hbinding
        have hkey : d.captured.key = key := congrArg Prod.fst hd'
        have hcap : d.captured.value = some value := congrArg Prod.snd hd'
        have hdecide := PureFilter.decide_of_mem_decisions hds hd
        subst hkey
        rw [hcap] at hdecide
        rw [value_settle_of_mem (hkeys ▸ hnodup) hd, Option.bind_some, PureFilter.keep, hdecide]
    · rw [value_settle_of_not_mem fun heq => absurd heq hname]
      exact (if_neg hname).symm

end Contents

/-! ### The wrapped store -/

namespace MergeOnRead

variable {m : MergeOnRead MemoryStore} {name : String}

/-- What a caller can tell of a wrapped memory store. -/
def contents (m : MergeOnRead MemoryStore) : Contents where
  operator name := (m.inner.contents.operator name).map fun _ => m.operators.find? name
  value := m.inner.contents.value

/-- The invariant of an open wrapped store. -/
structure Sound (m : MergeOnRead MemoryStore) : Prop where
  /-- The store inside is open. -/
  opened : m.inner.closed = false
  /-- The store inside is sound. -/
  inner : m.inner.Sound
  /-- Only partitions have a way of merging. -/
  belongs : ∀ name, m.inner.contents.operator name = none → m.operators.find? name = none

/-- A wrapped store without partitions satisfies it. -/
theorem Sound.wrap_empty : (wrap MemoryStore.empty).Sound :=
  ⟨rfl, MemoryStore.Sound.empty, fun _ _ => rfl⟩

/-! ### Changes -/

/-- A call on the wrapped store leaves the operators alone. -/
theorem onInner_of_run {ε α : Type} {call : Call MemoryStore ε α} {r : Except ε α}
    {inner : MemoryStore} (h : call m.inner = (r, inner)) :
    onInner call m = (r, { m with inner }) := by
  simp only [onInner, h]

/-- The ways of merging are the remembered ones, of the partitions that there are. -/
theorem operator_contents (name : String) :
    m.contents.operator name
      = (m.inner.contents.operator name).map fun _ => m.operators.find? name := rfl

/-- A change of values inside keeps the ways of merging where they belong. -/
theorem Sound.of_inner (h : m.Sound) {inner : MemoryStore} (hopen : inner.closed = false)
    (hs : inner.Sound) (hop : inner.contents.operator = m.inner.contents.operator) :
    ({ m with inner } : MergeOnRead MemoryStore).Sound :=
  ⟨hopen, hs, fun name hname => h.belongs name (by rwa [← hop])⟩

/-- What a call comes to that puts a value under a key, or removes it. -/
theorem write_effect (h : m.Sound) (w : Mutation) (key : Bytes) (value : Option Bytes)
    (hw : ∀ c : Contents, w.effect c = match c.operator name with
      | some _ => .ok (c.setValue name key value)
      | none => .error (.partitionNotFound name)) :
    (∃ m', onInner w.apply m = (.ok (), m') ∧ (m.contents.operator name).isSome ∧
        m'.contents = m.contents.setValue name key value ∧ m'.Sound) ∨
      ∃ e m', onInner w.apply m = (.error e, m') ∧ m.contents.operator name = none ∧
        m'.contents = m.contents ∧ m'.Sound := by
  have hsound := h.inner.apply w
  rcases w.apply_effect h.opened with
    ⟨inner, hrun, heffect, hopen⟩ | ⟨e, inner, hrun, heffect, hsame, hopen⟩
  · -- the store inside took the change, so it has the partition
    rw [hrun] at hsound
    cases hop : m.inner.contents.operator name with
    | none =>
      rw [hw, hop] at heffect
      cases heffect
    | some op =>
      rw [hw, hop] at heffect
      have hinner : inner.contents = m.inner.contents.setValue name key value :=
        (Except.ok.inj heffect).symm
      refine .inl ⟨_, onInner_of_run hrun, by rw [operator_contents, hop]; rfl, ?_,
        h.of_inner hopen hsound (by rw [hinner]; rfl)⟩
      unfold contents
      rw [hinner]
      rfl
  · -- it refused the change, and an open store does so only without the partition
    rw [hrun] at hsound
    cases hop : m.inner.contents.operator name with
    | none =>
      refine .inr ⟨e, _, onInner_of_run hrun, by rw [operator_contents, hop]; rfl, ?_,
        h.of_inner hopen hsound (by rw [hsame])⟩
      unfold contents
      rw [hsame]
    | some op =>
      rw [hw, hop] at heffect
      cases heffect

/-- The ways of merging after a partition is created. -/
def noted (op : Option MergeOperator) (name : String) (operators : Table String MergeOperator) :
    Table String MergeOperator :=
  match op with
  | some op => operators.insert name op
  | none => operators

/-- One operator is noted, if there is one to note. -/
theorem find?_noted {operators : Table String MergeOperator} (hnone : operators.find? name = none)
    (op : Option MergeOperator) (name' : String) :
    (noted op name operators).find? name' = if name' = name then op else operators.find? name' := by
  cases op with
  | some op => exact Table.find?_insert ..
  | none =>
    by_cases hname : name' = name
    · rw [if_pos hname, hname]
      exact hnone
    · rw [if_neg hname]
      rfl

/-- Behind a creation the operator is noted. -/
theorem create_of_ok {op : Option MergeOperator} {inner : MemoryStore}
    (h : Store.create name none m.inner = (.ok (), inner)) :
    create name op m = (.ok (), ⟨inner, noted op name m.operators⟩) := by
  show (onInner (Store.create name none) >>= _) m = _
  rw [Call.bind_of_ok (onInner_of_run h)]
  cases op <;> rfl

/-- A creation that fails notes nothing. -/
theorem create_of_error {op : Option MergeOperator} {e : StorageError} {inner : MemoryStore}
    (h : Store.create name none m.inner = (.error e, inner)) :
    create name op m = (.error e, { m with inner }) := by
  show (onInner (Store.create name none) >>= _) m = _
  rw [Call.bind_of_error (onInner_of_run h)]

/-- A new partition in the store inside, with its way of merging beside it. -/
theorem create_effect (h : m.Sound) (name : String) (op : Option MergeOperator) :
    (∃ m', create name op m = (.ok (), m') ∧ m.contents.operator name = none ∧
        m'.contents = m.contents.addPartition name op ∧ m'.Sound) ∨
      ∃ e m', create name op m = (.error e, m') ∧ (m.contents.operator name).isSome ∧
        m'.contents = m.contents ∧ m'.Sound := by
  have hsound := h.inner.apply (.create name none)
  rcases (Mutation.create name none).apply_effect h.opened with
    ⟨inner, hrun, heffect, hopen⟩ | ⟨e, inner, hrun, heffect, hsame, hopen⟩
  · rw [hrun] at hsound
    cases hop : m.inner.contents.operator name with
    -- -- the store inside creates only what it does not have
    | some op' =>
      simp only [Mutation.effect, hop] at heffect
      cases heffect
    | none =>
      simp only [Mutation.effect, hop] at heffect
      have hinner : inner.contents = m.inner.contents.addPartition name none :=
        (Except.ok.inj heffect).symm
      have hnoted := find?_noted (h.belongs name hop) op
      refine .inl ⟨_, create_of_ok hrun, by rw [operator_contents, hop]; rfl, ?_, hopen, hsound, ?_⟩
      · apply Contents.ext
        · funext name'
          rw [operator_contents, hnoted, hinner]
          by_cases hname : name' = name <;> simp [Contents.addPartition, operator_contents, hname]
        · show inner.contents.value = _
          rw [hinner]
          rfl
      · intro name' hname'
        rw [hinner] at hname'
        rw [hnoted]
        -- -- the new name has its note now, and every other keeps what it had
        by_cases hname : name' = name
        · simp [Contents.addPartition, hname] at hname'
        · rw [if_neg hname]
          exact h.belongs name' (by simpa [Contents.addPartition, hname] using hname')
  · rw [hrun] at hsound
    cases hop : m.inner.contents.operator name with
    | none =>
      simp only [Mutation.effect, hop] at heffect
      cases heffect
    | some op' =>
      refine .inr ⟨e, _, create_of_error hrun, by rw [operator_contents, hop]; rfl, ?_,
        h.of_inner hopen hsound (by rw [hsame])⟩
      unfold contents
      rw [hsame]

/-- A value of the wrapped store is the value that is seen. -/
theorem get_inner (h : m.Sound) {op : Option MergeOperator}
    (hop : m.inner.contents.operator name = some op) (key : Bytes) :
    Store.get name key m.inner = (.ok (m.contents.value name key), m.inner) := by
  obtain ⟨p, hp, _⟩ := Mutation.partition_of_operator h.opened hop
  have hvalue : m.contents.value name key = p.value? key := MemoryStore.value?_of_partition hp key
  rw [hvalue]
  exact MemoryStore.get_run hp key

/-- A change of a wrapped store has the effect that it has on the contents, and fails where it has
none. -/
theorem call_effect (h : m.Sound) (w : Mutation) :
    (∃ m', w.call m = (.ok (), m') ∧ w.effect m.contents = .ok m'.contents ∧ m'.Sound) ∨
      ∃ e e' m', w.call m = (.error e, m') ∧ w.effect m.contents = .error e' ∧
        m'.contents = m.contents ∧ m'.Sound := by
  cases w with
  | create name op =>
    rcases create_effect h name op with ⟨m', hrun, hop, hc, hs⟩ | ⟨e, m', hrun, hop, hc, hs⟩
    · exact .inl ⟨m', hrun, by simp only [Mutation.effect, hop, hc], hs⟩
    · obtain ⟨op', hop⟩ := Option.isSome_iff_exists.1 hop
      exact .inr ⟨e, _, m', hrun, by simp only [Mutation.effect, hop]; rfl, hc, hs⟩
  | put name key value =>
    rcases write_effect h (.put name key value) key (some value) fun _ => rfl with
      ⟨m', hrun, hop, hc, hs⟩ | ⟨e, m', hrun, hop, hc, hs⟩
    · obtain ⟨op', hop⟩ := Option.isSome_iff_exists.1 hop
      exact .inl ⟨m', hrun, by simp only [Mutation.effect, hop, hc], hs⟩
    · exact .inr ⟨e, _, m', hrun, by simp only [Mutation.effect, hop]; rfl, hc, hs⟩
  | delete name key =>
    rcases write_effect h (.delete name key) key none fun _ => rfl with
      ⟨m', hrun, hop, hc, hs⟩ | ⟨e, m', hrun, hop, hc, hs⟩
    · obtain ⟨op', hop⟩ := Option.isSome_iff_exists.1 hop
      exact .inl ⟨m', hrun, by simp only [Mutation.effect, hop, hc], hs⟩
    · exact .inr ⟨e, _, m', hrun, by simp only [Mutation.effect, hop]; rfl, hc, hs⟩
  | merge name key operand =>
    cases hway : m.operators.find? name with
    | none =>
      -- where there is no partition, the wrapper misses the way of merging first
      have hrun := merge_of_no_way hway key operand
      cases hop : m.inner.contents.operator name with
      | none =>
        refine .inr ⟨_, .partitionNotFound name, m, hrun, ?_, rfl, h⟩
        simp only [Mutation.effect, operator_contents, hop, Option.map_none]
      | some op =>
        refine .inr ⟨_, .mergeNotSupported name, m, hrun, ?_, rfl, h⟩
        simp only [Mutation.effect, operator_contents, hop, Option.map_some, hway]
    | some op =>
      cases hop : m.inner.contents.operator name with
      | none =>
        rw [h.belongs name hop] at hway
        cases hway
      | some op' =>
        have hget := onInner_of_run (get_inner h hop key)
        have hmerge := merge_of_way hway key operand
        rw [Call.bind_of_ok hget] at hmerge
        have heffect : (Mutation.merge name key operand).effect m.contents
            = .ok (m.contents.setValue name key
                (some (op.fullMerge (m.contents.value name key) [operand]))) := by
          simp only [Mutation.effect, operator_contents, hop, Option.map_some, hway]
        rcases write_effect h (.put name key (op.fullMerge (m.contents.value name key) [operand])) key
          (some (op.fullMerge (m.contents.value name key) [operand])) fun _ => rfl with
          ⟨m', hrun, _, hc, hs⟩ | ⟨e, m', _, hnone, _, _⟩
        · exact .inl ⟨m', hmerge.trans hrun, by rw [heffect, hc], hs⟩
        · rw [operator_contents, hop] at hnone
          cases hnone

/-! ### Passes -/

/-- What a wrapped store captures of a partition that lists `entries`. -/
def listed (entries : List (Bytes × Bytes)) : List Captured :=
  entries.map fun (key, value) => ⟨key, 0, 0, some value⟩

/-- A listing captures every value, without versions. -/
theorem bindings_listed (entries : List (Bytes × Bytes)) :
    (listed entries).map Captured.binding = entries.map fun (key, value) => (key, some value) := by
  rw [listed, List.map_map]
  rfl

/-- A pass captures the listing of the wrapped store. -/
theorem capture_of_ok {p : Partition} (hp : m.inner.partition name = .ok p) :
    Store.capture name m = (.ok (listed p.resolved), m) := by
  have hscan : Store.scan name m.inner = (.ok p.resolved, m.inner) := MemoryStore.scan_run hp
  show captureByScan (fun name => onInner (Store.scan name)) name m = _
  rw [captureByScan, Call.bind_of_ok (Call.attempting_of_ok _ (onInner_of_run hscan))]
  rfl

/-- Where that has no partition, there is nothing to capture. -/
theorem capture_of_error {e : StorageError} (hp : m.inner.partition name = .error e) :
    Store.capture name m = (.error (.access .accessingStore e), m) := by
  have hscan : Store.scan name m.inner = (.error e, m.inner) := by
    show MemoryStore.scan name m.inner = _
    simp [MemoryStore.scan, Call.query, hp, Except.map]
  show captureByScan (fun name => onInner (Store.scan name)) name m = _
  rw [captureByScan, Call.bind_of_error (Call.attempting_of_error _ (onInner_of_run hscan))]

/-- The writes of a pass over a wrapped store. -/
def commitWrites (name : String) (ds : List Decision) (stats : CompactionStats) :
    Call (MergeOnRead MemoryStore) StateError CompactionStats :=
  commitByWrites (fun key value => onInner (Store.put name key value))
    (fun key => onInner (Store.delete name key)) ds stats

/-- A decision taken on the value its key has is carried out by at most one write, and counted by
what it does. -/
theorem commitWrites_cons (h : m.Sound) (hop : (m.contents.operator name).isSome) {d : Decision}
    (hvalue : m.contents.value name d.captured.key = d.captured.value) :
    ∃ m₁, m₁.contents = m.contents.setValue name d.captured.key d.outcome ∧ m₁.Sound ∧
      ∀ ds stats, commitWrites name (d :: ds) stats m = commitWrites name ds { stats with
        rewritten := stats.rewritten + (if d.rewrites then 1 else 0)
        removed := stats.removed + (if d.removes then 1 else 0) } m₁ := by
  unfold commitWrites
  cases ho : d.outcome with
  | none =>
    rcases write_effect h (.delete name d.captured.key) d.captured.key none fun _ => rfl with
      ⟨m₁, hrun, _, hc, hs⟩ | ⟨_, _, _, hnone, _, _⟩
    · refine ⟨m₁, hc, hs, fun ds stats => ?_⟩
      have hdelete : onInner (Store.delete name d.captured.key) m = (.ok (), m₁) := hrun
      have hcall := Call.attempting_of_ok .accessingStore hdelete
      rw [commitByWrites, ho]
      simp only [Call.bind_of_ok hcall, Decision.rewrites, Decision.removes, ho, Option.isSome_none,
        Option.isNone_none, Bool.false_and, Bool.false_eq_true, if_false, if_true, Nat.add_zero]
    · rw [hnone] at hop
      cases hop
  | some value =>
    by_cases hsame : some value = d.captured.value
    · -- nothing is written where the value stays
      refine ⟨m, (Contents.setValue_self (hvalue.trans hsame.symm)).symm, h, fun ds stats => ?_⟩
      rw [commitByWrites, ho]
      simp [Decision.rewrites, Decision.removes, ho, ← hsame]
    · rcases write_effect h (.put name d.captured.key value) d.captured.key (some value)
        fun _ => rfl with ⟨m₁, hrun, _, hc, hs⟩ | ⟨_, _, _, hnone, _, _⟩
      · refine ⟨m₁, hc, hs, fun ds stats => ?_⟩
        have hput : onInner (Store.put name d.captured.key value) m = (.ok (), m₁) := hrun
        have hcall := Call.attempting_of_ok .accessingStore hput
        rw [commitByWrites, ho]
        simp [Call.bind_of_ok hcall, Decision.rewrites, Decision.removes, ho, hsame]
      · rw [hnone] at hop
        cases hop

/-- Decisions about different keys, taken on the values the keys have, settle the contents. -/
theorem commitWrites_run {ds : List Decision} (h : m.Sound)
    (hop : (m.contents.operator name).isSome) (hnodup : (ds.map (·.captured.key)).Nodup)
    (hvalues : ∀ d ∈ ds, m.contents.value name d.captured.key = d.captured.value)
    (stats : CompactionStats) :
    ∃ m', commitWrites name ds stats m = (.ok { stats with
        rewritten := stats.rewritten + ds.countP (·.rewrites)
        removed := stats.removed + ds.countP (·.removes) }, m') ∧
      m'.contents = m.contents.settle name ds ∧ m'.Sound := by
  induction ds generalizing m stats with
  | nil => exact ⟨m, rfl, rfl, h⟩
  | cons d ds ih =>
    obtain ⟨hd, hnodup⟩ := List.nodup_cons.1 hnodup
    obtain ⟨hvalue, hvalues⟩ := List.forall_mem_cons.1 hvalues
    obtain ⟨m₁, hc, hs, hrun⟩ := commitWrites_cons h hop hvalue
    -- whatever becomes of this key, the others keep their values
    have hothers : ∀ d' ∈ ds, m₁.contents.value name d'.captured.key = d'.captured.value := by
      intro d' hd'
      have hne : d'.captured.key ≠ d.captured.key := fun heq =>
        hd (List.mem_map.2 ⟨d', hd', heq⟩)
      rw [hc, ← hvalues d' hd']
      exact if_neg fun hboth => hne hboth.2
    obtain ⟨m', hrest, hc', hs'⟩ := ih hs (by rw [hc]; exact hop) hnodup hothers _
    refine ⟨m', ?_, by rw [hc', hc]; rfl, hs'⟩
    rw [hrun, hrest]
    simp only [List.countP_cons, Nat.add_assoc, Nat.add_comm (List.countP _ ds)]

variable {p : Partition} {filter : Option PureFilter} {ω : Type}

/-- A pass over a wrapped store fails where a decision does, and changes nothing. -/
theorem compact_of_decisions_error (hp : m.inner.partition name = .ok p) {e : StateError}
    (hds : PureFilter.decisions filter (listed p.resolved) = .error e) (w : ω) :
    compact name (filter.map PureFilter.toFilter) (m, w) = (.error e, m, w) := by
  have hdecide := PureFilter.decideAll_eq filter (listed p.resolved) (m, w)
  rw [hds] at hdecide
  exact compact_of_decideAll_error (capture_of_ok hp) hdecide

/-- A pass over a wrapped store filters the contents and reports its decisions. -/
theorem compact_of_decisions (h : m.Sound) (hp : m.inner.partition name = .ok p)
    {ds : List Decision} (hds : PureFilter.decisions filter (listed p.resolved) = .ok ds) (w : ω) :
    ∃ m', compact name (filter.map PureFilter.toFilter) (m, w)
        = (.ok ⟨ds.length, ds.countP (·.rewrites), ds.countP (·.removes), 0, 0⟩, m', w) ∧
      m'.contents = m.contents.pass name filter ∧ m'.Sound := by
  -- the listing has the values that are seen, so what is decided about it is decided about them
  have hentries : ∀ key value,
      (key, value) ∈ p.resolved ↔ m.contents.value name key = some value := fun key value => by
    rw [Partition.mem_resolved_iff, ← MemoryStore.value?_of_partition hp]
    rfl
  have hnodup : (p.resolved.map (·.1)).Nodup := (p.entries.filterMap p.resolve).nodup_keys
  have hcaptured := PureFilter.captured_of_decisions hds
  have hkeys : ds.map (·.captured.key) = p.resolved.map (·.1) := by
    have hmap := congrArg (List.map Captured.key) hcaptured
    rw [listed, List.map_map, List.map_map] at hmap
    exact hmap
  have hvalues : ∀ d ∈ ds, m.contents.value name d.captured.key = d.captured.value := by
    intro d hd
    have hmem : d.captured ∈ listed p.resolved := hcaptured ▸ List.mem_map.2 ⟨d, hd, rfl⟩
    obtain ⟨⟨key, value⟩, hentry, hcap⟩ := List.mem_map.1 hmem
    rw [← hcap]
    exact (hentries key value).1 hentry
  have hop : (m.contents.operator name).isSome := by
    rw [operator_contents]
    simp [MemoryStore.contents, (MemoryStore.partition_eq_ok_iff.1 hp).2]
  -- the decisions are carried out one by one, each under a key of its own
  obtain ⟨m', hrun, hc, hs⟩ := commitWrites_run h hop (hkeys ▸ hnodup) hvalues (.visited ds.length)
  have hdecide := PureFilter.decideAll_eq filter (listed p.resolved) (m, w)
  rw [hds] at hdecide
  have hcommit : Store.commit name ds m = commitWrites name ds (.visited ds.length) m := rfl
  refine ⟨m', ?_, ?_, hs⟩
  · rw [compact_of_decideAll (capture_of_ok hp) hdecide, hcommit, hrun]
    simp only [CompactionStats.visited, Nat.zero_add]
  · rw [hc]
    exact Contents.settle_eq_pass hds (bindings_listed _) hnodup hentries

end MergeOnRead

end AppendLists
