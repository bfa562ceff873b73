import AppendLists.Proofs.Call
import AppendLists.Proofs.Memory.Invariant

namespace AppendLists

/-!
# The steps of a compaction pass

What capturing and committing do to a memory store, with nothing assumed about what happens
between them.

* `Partition.captured`: one element for each entry (`mem_captured_iff`), no key twice
  (`nodup_captured`);
* `Decision.settle`: what a decision makes of the entry it finds, `find?_commitDecisions_of_mem`;
  entries of other keys stay, `find?_commitDecisions_of_not_mem`;
* `Sound.commit`: committing keeps the invariant, whatever was decided;
* `CompactionStats.changes`, `stats_commitDecisions`, `Partition.unchanged_iff`: what a commit
  reports;
* `Partition.value?_pass`, `MemoryStore.compact_run`: a pass with a pure filter and nothing in
  between.
-/

/-! ### Capturing -/

namespace Partition

/-- What a pass captures of an entry. -/
def capture (p : Partition) (key : Bytes) (e : Entry) : Captured :=
  ⟨key, e.version, e.operands.length, p.resolve e⟩

/-- What is captured is an entry under its key. -/
theorem mem_captured_iff {p : Partition} {c : Captured} :
    c ∈ p.captured ↔ ∃ e, p.entries.find? c.key = some e ∧ c = p.capture c.key e := by
  constructor
  · intro h
    obtain ⟨⟨key, e⟩, he, rfl⟩ := List.mem_map.1 h
    exact ⟨e, Table.mem_pairs_iff.1 he, rfl⟩
  · rintro ⟨e, he, hc⟩
    rw [hc]
    exact List.mem_map.2 ⟨(c.key, e), Table.mem_pairs_iff.2 he, rfl⟩

/-- Every key is captured, in order. -/
theorem keys_captured (p : Partition) : p.captured.map (·.key) = p.entries.keys := by
  simp [captured, Table.keys]

/-- No key is captured twice. -/
theorem nodup_captured (p : Partition) : (p.captured.map (·.key)).Nodup := by
  rw [keys_captured]
  exact p.entries.nodup_keys

end Partition

namespace MemoryStore

variable {s : MemoryStore} {name : String} {p : Partition}

/-- A pass captures the partition and changes nothing. -/
theorem capture_run (hp : s.partition name = .ok p) : capture name s = (.ok p.captured, s) := by
  simp [capture, Call.attempting, Call.mapError, Call.query, hp, Except.map]

/-- Where the partition is not found, there is nothing to capture. -/
theorem capture_run_of_error {e : StorageError} (hp : s.partition name = .error e) :
    capture name s = (.error (.access .accessingStore e), s) := by
  simp [capture, Call.attempting, Call.mapError, Call.query, hp, Except.map]

end MemoryStore

/-! ### Committing -/

/-- What a decision makes of the entry it finds under its key; `none` removes it. -/
def Decision.settle (d : Decision) (e : Entry) : Option Entry :=
  if e.version = d.captured.version then d.outcome.map fun value => ⟨some value, [], e.version⟩
  else some e

namespace MemoryStore

variable {s : MemoryStore} {name : String} {p : Partition}

/-- Committing does not change the way of merging. -/
@[simp] theorem operator_commitDecision (d : Decision) (p : Partition) (stats : CompactionStats) :
    (commitDecision d p stats).1.operator = p.operator := by
  unfold commitDecision
  split
  · rfl
  · split
    · rfl
    · split <;> rfl

/-- A decision settles the entry of its key and leaves every other entry alone. -/
theorem find?_commitDecision (d : Decision) (p : Partition) (stats : CompactionStats)
    (key : Bytes) :
    (commitDecision d p stats).1.entries.find? key
      = if key = d.captured.key then (p.entries.find? key).bind d.settle
        else p.entries.find? key := by
  unfold commitDecision
  -- the cases are those of the commit: no entry, the captured one, a newer one
  cases he : p.entries.find? d.captured.key with
  | none =>
    by_cases hk : key = d.captured.key
    · simp [hk, he]
    · simp [hk]
  | some e =>
    by_cases hv : e.version = d.captured.version
    · cases ho : d.outcome with
      | none =>
        by_cases hk : key = d.captured.key
        · simp [hk, he, hv, ho, Decision.settle]
        · simp [hk, hv]
      | some value =>
        by_cases hk : key = d.captured.key
        · simp [hk, he, hv, ho, Decision.settle]
        · simp [hk, hv]
    · by_cases hk : key = d.captured.key
      · simp [hk, he, hv, Decision.settle]
      · simp [hk, hv]

@[simp] theorem operator_commitDecisions (ds : List Decision) (p : Partition)
    (stats : CompactionStats) : (commitDecisions ds p stats).1.operator = p.operator := by
  induction ds generalizing p stats with
  | nil => rfl
  | cons d ds ih =>
    rw [commitDecisions, ih]
    exact operator_commitDecision d p stats

/-- A key that nothing was decided about stays as it is. -/
theorem find?_commitDecisions_of_not_mem {ds : List Decision} {key : Bytes}
    (h : key ∉ ds.map (·.captured.key)) (p : Partition) (stats : CompactionStats) :
    (commitDecisions ds p stats).1.entries.find? key = p.entries.find? key := by
  induction ds generalizing p stats with
  | nil => rfl
  | cons d ds ih =>
    obtain ⟨hd, hds⟩ : key ≠ d.captured.key ∧ key ∉ ds.map (·.captured.key) := by
      simpa [not_or] using h
    rw [commitDecisions, ih hds, find?_commitDecision, if_neg hd]

/-- Decisions about different keys do not get in each other's way. -/
theorem find?_commitDecisions_of_mem {ds : List Decision} {d : Decision}
    (hnodup : (ds.map (·.captured.key)).Nodup) (hd : d ∈ ds) (p : Partition)
    (stats : CompactionStats) :
    (commitDecisions ds p stats).1.entries.find? d.captured.key
      = (p.entries.find? d.captured.key).bind d.settle := by
  induction ds generalizing p stats with
  | nil => cases hd
  | cons d' ds ih =>
    obtain ⟨hd', hds⟩ := List.nodup_cons.1 hnodup
    rw [commitDecisions]
    rcases List.mem_cons.1 hd with rfl | hd
    · -- settled first, and left alone by the others
      rw [find?_commitDecisions_of_not_mem hd', find?_commitDecision, if_pos rfl]
    · have hne : d.captured.key ≠ d'.captured.key := by
        intro heq
        exact hd' (List.mem_map.2 ⟨d, hd, heq⟩)
      rw [ih hds hd, find?_commitDecision, if_neg hne]

/-- All decisions are committed at once. -/
theorem commit_run (hp : s.partition name = .ok p) (ds : List Decision) :
    commit name ds s
      = (.ok (commitDecisions ds p (.visited ds.length)).2,
          s.setPartition name (commitDecisions ds p (.visited ds.length)).1) := by
  simp [commit, hp, setPartition]

/-- Where the partition is not found any more, nothing is committed. -/
theorem commit_run_of_error {e : StorageError} (hp : s.partition name = .error e)
    (ds : List Decision) : commit name ds s = (.error (.access .accessingStore e), s) := by
  simp [commit, hp]

end MemoryStore

/-! ### Committing keeps the invariant -/

/-- A settled entry has no operands, and the version it had. -/
theorem Decision.settle_sound {d : Decision} {op : Option MergeOperator} {next : Nat}
    {e e' : Entry} (h : e.Sound op next) (he : d.settle e = some e') : e'.Sound op next := by
  unfold settle at he
  split at he
  · obtain ⟨value, _, rfl⟩ := Option.map_eq_some_iff.1 he
    exact ⟨by simp, fun _ => rfl, h.stamped⟩
  · obtain rfl := Option.some.inj he
    exact h

/-- Committing keeps the invariant. -/
theorem Partition.Sound.commitDecision {next : Nat} {p : Partition} (h : p.Sound next)
    (d : Decision) (stats : CompactionStats) :
    (MemoryStore.commitDecision d p stats).1.Sound next := by
  intro key e he
  rw [MemoryStore.operator_commitDecision]
  rw [MemoryStore.find?_commitDecision] at he
  split at he
  · obtain ⟨e', he', hs⟩ := Option.bind_eq_some_iff.1 he
    exact d.settle_sound (h key e' he') hs
  · exact h key e he

theorem Partition.Sound.commitDecisions {next : Nat} {p : Partition} (h : p.Sound next)
    (ds : List Decision) (stats : CompactionStats) :
    (MemoryStore.commitDecisions ds p stats).1.Sound next := by
  induction ds generalizing p stats with
  | nil => exact h
  | cons d ds ih => exact ih (h.commitDecision d stats) _

/-- Committing keeps the invariant, whatever was decided and whenever. -/
theorem MemoryStore.Sound.commit {s : MemoryStore} (h : s.Sound) (name : String)
    (ds : List Decision) : (MemoryStore.commit name ds s).2.Sound := by
  cases hp : s.partition name with
  | ok p =>
    rw [commit_run hp]
    exact h.setPartition ((h.of_partition hp).commitDecisions ds _)
  | error e =>
    rw [commit_run_of_error hp]
    exact h

/-! ### What a commit reports -/

/-- The number of things that a pass reports to have changed. -/
def CompactionStats.changes (stats : CompactionStats) : Nat :=
  stats.removed + stats.rewritten + stats.folded

namespace Decision

/-- Whether the decision removes its key. -/
def removes (d : Decision) : Bool := d.outcome.isNone

/-- Whether the decision keeps its key with another value. -/
def rewrites (d : Decision) : Bool := d.outcome.isSome && d.outcome ≠ d.captured.value

/-- Whether the entry that was captured is still there. -/
def Current (p : Partition) (d : Decision) : Prop :=
  ∃ e, p.entries.find? d.captured.key = some e ∧ e.version = d.captured.version

end Decision

namespace MemoryStore

/-- A decision about an entry that is still there is counted by what it does. -/
theorem stats_commitDecision {d : Decision} {p : Partition} (h : d.Current p)
    (stats : CompactionStats) :
    (commitDecision d p stats).2 = { stats with
      rewritten := stats.rewritten + (if d.rewrites then 1 else 0)
      removed := stats.removed + (if d.removes then 1 else 0)
      folded := stats.folded + d.captured.pending } := by
  obtain ⟨e, he, hv⟩ := h
  unfold commitDecision
  cases ho : d.outcome with
  | none => simp [he, hv, Decision.rewrites, Decision.removes, ho]
  | some value =>
    by_cases hsame : some value = d.captured.value
    · simp [he, hv, Decision.rewrites, Decision.removes, ho, ← hsame]
    · simp [he, hv, Decision.rewrites, Decision.removes, ho, hsame]

/-- So is each of several decisions about different keys. -/
theorem stats_commitDecisions {ds : List Decision} {p : Partition}
    (hnodup : (ds.map (·.captured.key)).Nodup) (h : ∀ d ∈ ds, d.Current p)
    (stats : CompactionStats) :
    (commitDecisions ds p stats).2 = { stats with
      rewritten := stats.rewritten + ds.countP (·.rewrites)
      removed := stats.removed + ds.countP (·.removes)
      folded := ds.foldl (fun n d => n + d.captured.pending) stats.folded } := by
  induction ds generalizing p stats with
  | nil => rfl
  | cons d ds ih =>
    obtain ⟨hd, hnodup⟩ := List.nodup_cons.1 hnodup
    obtain ⟨hhere, hothers⟩ := List.forall_mem_cons.1 h
    -- the entries of the other decisions are not touched by this one
    have hafter : ∀ d' ∈ ds, d'.Current (commitDecision d p stats).1 := by
      intro d' hd'
      have hne : d'.captured.key ≠ d.captured.key := by
        intro heq
        exact hd (List.mem_map.2 ⟨d', hd', heq⟩)
      obtain ⟨e, he, hv⟩ := hothers d' hd'
      exact ⟨e, by rw [find?_commitDecision, if_neg hne, he], hv⟩
    rw [commitDecisions, ih hnodup hafter, stats_commitDecision hhere]
    simp only [List.countP_cons, List.foldl_cons, Nat.add_assoc, Nat.add_comm (List.countP _ ds)]

end MemoryStore

/-! ### A pass with nothing in between -/

/-- What a pure filter makes of a value, if it does not fail. -/
def PureFilter.keep (filter : Option PureFilter) (value : Bytes) : Option Bytes :=
  match decide filter (some value) with
  | .ok outcome => outcome
  | .error _ => none

namespace Partition

variable {p : Partition} {next : Nat} {ds : List Decision} {key : Bytes}

/-- A key with a value is captured with it. -/
theorem exists_captured {value : Bytes} (h : p.value? key = some value) :
    ∃ c ∈ p.captured, c.key = key ∧ c.value = some value := by
  obtain ⟨e, he, hv⟩ := Option.bind_eq_some_iff.1 h
  exact ⟨p.capture key e, mem_captured_iff.2 ⟨e, he, rfl⟩, rfl, hv⟩

/-- What is captured of a key is its value. -/
theorem value_of_mem_captured {c : Captured} (h : c ∈ p.captured) : c.value = p.value? c.key := by
  obtain ⟨e, he, hce⟩ := mem_captured_iff.1 h
  rw [value?, he, hce]
  rfl

/-- There is one decision for every key. -/
theorem nodup_of_captured (hds : ds.map (·.captured) = p.captured) :
    (ds.map (·.captured.key)).Nodup := by
  have h := p.nodup_captured
  rwa [← hds, List.map_map] at h

/-- A decision about what was captured is current until the key is written. -/
theorem current_of_captured (hds : ds.map (·.captured) = p.captured) {d : Decision} (hd : d ∈ ds) :
    d.Current p := by
  have hmem : d.captured ∈ p.captured := hds ▸ List.mem_map.2 ⟨d, hd, rfl⟩
  obtain ⟨e, he, hce⟩ := mem_captured_iff.1 hmem
  exact ⟨e, he, by rw [hce]; rfl⟩

/-- A pass reports no change if and only if it leaves every value as it is. -/
theorem unchanged_iff (hs : p.Sound next) (hds : ds.map (·.captured) = p.captured) (n : Nat) :
    (MemoryStore.commitDecisions ds p (.visited n)).2.removed = 0 ∧
        (MemoryStore.commitDecisions ds p (.visited n)).2.rewritten = 0
      ↔ ∀ d ∈ ds, d.outcome = d.captured.value := by
  have hstats := MemoryStore.stats_commitDecisions (nodup_of_captured hds)
    (fun d hd => current_of_captured hds hd) (.visited n)
  rw [hstats]
  simp only [CompactionStats.visited, Nat.zero_add, List.countP_eq_zero]
  constructor
  · rintro ⟨hremoves, hrewrites⟩ d hd
    have hremoves := hremoves d hd
    have hrewrites := hrewrites d hd
    cases ho : d.outcome with
    | none => simp [Decision.removes, ho] at hremoves
    | some value => simpa [Decision.rewrites, ho] using hrewrites
  · intro h
    constructor
    · -- a captured entry has a value, so an outcome equal to it removes nothing
      intro d hd
      obtain ⟨e, he, _⟩ := current_of_captured hds hd
      have hsome : d.captured.value.isSome := by
        rw [value_of_mem_captured (hds ▸ List.mem_map.2 ⟨d, hd, rfl⟩), hs.value?_isSome, he]
        rfl
      rw [← h d hd] at hsome
      simp [Decision.removes, Option.isNone_eq_false_iff.2 hsome]
    · intro d hd
      simp [Decision.rewrites, h d hd]

/-- A key that the commit finds as it was captured from `p` gets its outcome. -/
theorem find?_commitDecisions_of_unchanged {q : Partition}
    (hds : ds.map (·.captured) = p.captured) {d : Decision} (hd : d ∈ ds)
    (h : q.entries.find? d.captured.key = p.entries.find? d.captured.key)
    (stats : CompactionStats) :
    (MemoryStore.commitDecisions ds q stats).1.entries.find? d.captured.key
      = d.outcome.map fun value => ⟨some value, [], d.captured.version⟩ := by
  have hmem : d.captured ∈ p.captured := hds ▸ List.mem_map.2 ⟨d, hd, rfl⟩
  obtain ⟨e, he, hce⟩ := mem_captured_iff.1 hmem
  have hversion : e.version = d.captured.version := by rw [hce]; rfl
  rw [MemoryStore.find?_commitDecisions_of_mem (nodup_of_captured hds) hd, h, he,
    Option.bind_some, Decision.settle, if_pos hversion, hversion]

/-- The value of a key is what was decided about it. -/
theorem value?_commitDecisions_of_mem (hds : ds.map (·.captured) = p.captured) {d : Decision}
    (hd : d ∈ ds) (stats : CompactionStats) :
    (MemoryStore.commitDecisions ds p stats).1.value? d.captured.key = d.outcome := by
  rw [value?, find?_commitDecisions_of_unchanged hds hd rfl]
  cases d.outcome <;> rfl

/-- A key without a value has no entry in a sound partition, and was not captured. -/
theorem not_mem_captured_of_none (hs : p.Sound next) (hds : ds.map (·.captured) = p.captured)
    (h : p.value? key = none) :
    p.entries.find? key = none ∧ key ∉ ds.map (·.captured.key) := by
  have hnone : p.entries.find? key = none := by
    have hsome := hs.value?_isSome key
    rw [h] at hsome
    exact Option.isNone_iff_eq_none.1 (by simpa using hsome.symm)
  have hkeys : ds.map (·.captured.key) = p.entries.keys := by
    rw [← keys_captured, ← hds, List.map_map]
    rfl
  refine ⟨hnone, ?_⟩
  rw [hkeys, Table.mem_keys_iff, hnone]
  simp

/-- A key without a value gets none. -/
theorem value?_commitDecisions_of_none (hs : p.Sound next) (hds : ds.map (·.captured) = p.captured)
    (h : p.value? key = none) (stats : CompactionStats) :
    (MemoryStore.commitDecisions ds p stats).1.value? key = none := by
  obtain ⟨hnone, hkey⟩ := not_mem_captured_of_none hs hds h
  rw [value?, MemoryStore.find?_commitDecisions_of_not_mem hkey, hnone]
  rfl

/-- A pass that leaves every value as it is leaves all values as they are, and only such a pass. -/
theorem value?_commitDecisions_eq_iff (hs : p.Sound next) (hds : ds.map (·.captured) = p.captured)
    (stats : CompactionStats) :
    (∀ key, (MemoryStore.commitDecisions ds p stats).1.value? key = p.value? key)
      ↔ ∀ d ∈ ds, d.outcome = d.captured.value := by
  have hvalue : ∀ d ∈ ds, d.captured.value = p.value? d.captured.key := fun d hd =>
    value_of_mem_captured (hds ▸ List.mem_map.2 ⟨d, hd, rfl⟩)
  constructor
  · intro h d hd
    rw [hvalue d hd, ← h d.captured.key, value?_commitDecisions_of_mem hds hd]
  · intro h key
    cases hv : p.value? key with
    | none => exact value?_commitDecisions_of_none hs hds hv stats
    | some value =>
      obtain ⟨c, hc, hkey, hcv⟩ := exists_captured hv
      rw [← hds] at hc
      obtain ⟨d, hd, rfl⟩ := List.mem_map.1 hc
      rw [← hkey, value?_commitDecisions_of_mem hds hd, h d hd, hcv]

/-- A pass with a pure filter replaces every value by what the filter makes of it. -/
theorem value?_pass {filter : Option PureFilter} (hs : p.Sound next)
    (hds : PureFilter.decisions filter p.captured = .ok ds) (stats : CompactionStats)
    (key : Bytes) :
    (MemoryStore.commitDecisions ds p stats).1.value? key
      = (p.value? key).bind (PureFilter.keep filter) := by
  have hcaptured : ds.map (·.captured) = p.captured := PureFilter.captured_of_decisions hds
  cases hv : p.value? key with
  | none => exact value?_commitDecisions_of_none hs hcaptured hv stats
  | some value =>
    obtain ⟨c, hc, hkey, hvalue⟩ := exists_captured hv
    rw [← hcaptured] at hc
    obtain ⟨d, hd, rfl⟩ := List.mem_map.1 hc
    have houtcome := PureFilter.decide_of_mem_decisions hds hd
    rw [hvalue] at houtcome
    rw [← hkey, value?_commitDecisions_of_mem hcaptured hd, Option.bind_some, PureFilter.keep,
      houtcome]

end Partition

namespace MemoryStore

variable {s : MemoryStore} {name : String} {p : Partition} {ω : Type}

/-- A pass with a pure filter decides about what the partition holds and commits. -/
theorem compact_run (hp : s.partition name = .ok p) (filter : Option PureFilter) (w : ω) :
    compact name (filter.map PureFilter.toFilter) (s, w)
      = match PureFilter.decisions filter p.captured with
        | .error e => (.error e, s, w)
        | .ok ds => ((commit name ds s).1, (commit name ds s).2, w) := by
  have hcapture : Store.capture name s = (.ok p.captured, s) := capture_run hp
  have hdecide := PureFilter.decideAll_eq filter p.captured (s, w)
  cases hds : PureFilter.decisions filter p.captured with
  | error e =>
    rw [hds] at hdecide
    exact compact_of_decideAll_error hcapture hdecide
  | ok ds =>
    rw [hds] at hdecide
    exact compact_of_decideAll hcapture hdecide

end MemoryStore

/-! ### Passes told by contents -/

/-- The contents after a pass with a pure filter over a partition. -/
def Contents.pass (c : Contents) (name : String) (filter : Option PureFilter) : Contents where
  operator := c.operator
  value name' key :=
    if name' = name then (c.value name' key).bind (PureFilter.keep filter) else c.value name' key

/-- The captured values are those of the keys, in order. -/
theorem Partition.values_captured (p : Partition) :
    p.captured.map (·.value) = p.entries.keys.map p.value? := by
  rw [captured, Table.keys, List.map_map, List.map_map]
  apply List.map_congr_left
  rintro ⟨key, e⟩ hmem
  simp [value?, Table.mem_pairs_iff.1 hmem]

/-- Partitions of equal values are captured with equal values. -/
theorem Partition.values_captured_congr {p q : Partition} {next next' : Nat} (hp : p.Sound next)
    (hq : q.Sound next') (h : ∀ key, p.value? key = q.value? key) :
    p.captured.map (·.value) = q.captured.map (·.value) := by
  have hkeys : p.entries.keys = q.entries.keys := by
    apply Table.keys_eq_of_isSome_eq
    intro key
    rw [← hp.value?_isSome, ← hq.value?_isSome, h]
  rw [values_captured, values_captured, hkeys]
  exact List.map_congr_left fun key _ => h key

/-- A pure filter decides about partitions of equal values alike. -/
theorem PureFilter.decisions_isOk_congr {p q : Partition} {next next' : Nat} (hp : p.Sound next)
    (hq : q.Sound next') (h : ∀ key, p.value? key = q.value? key) (filter : Option PureFilter) :
    (∃ ds, decisions filter p.captured = .ok ds) ↔ ∃ ds, decisions filter q.captured = .ok ds := by
  -- both come down to evaluating the filter along one list of values
  have hp' := outcomes_decisions filter p.captured
  have hq' := outcomes_decisions filter q.captured
  rw [Partition.values_captured_congr hp hq h, ← hq'] at hp'
  cases hds : decisions filter p.captured <;> cases hds' : decisions filter q.captured <;>
    simp_all [Except.map]

namespace MemoryStore

variable {s u : MemoryStore} {name : String} {p : Partition} {ω : Type}

/-- The commit of a pure pass changes the contents as the filter says. -/
theorem contents_commitDecisions (hs : s.Sound) (hp : s.partition name = .ok p)
    {filter : Option PureFilter} {ds : List Decision}
    (hds : PureFilter.decisions filter p.captured = .ok ds) (stats : CompactionStats) :
    (s.setPartition name (commitDecisions ds p stats).1).contents
      = s.contents.pass name filter := by
  have hfound := (partition_eq_ok_iff.1 hp).2
  refine contents_setPartition_eq hfound (operator_commitDecisions ..) rfl (fun key => ?_)
    fun other hother key => if_neg hother
  simp [Contents.pass, contents, value?, hfound,
    Partition.value?_pass (hs.of_partition hp) hds stats]

/-- A pure pass that decides over a store does so over every open store of equal contents, and
filters the contents. -/
theorem compact_of_decisions (hs : s.Sound) (hp : s.partition name = .ok p) (hu : u.Sound)
    (hc : u.closed = false) (h : s.contents = u.contents) {filter : Option PureFilter}
    {ds : List Decision} (hds : PureFilter.decisions filter p.captured = .ok ds) (w : ω) :
    ∃ stats u', compact name (filter.map PureFilter.toFilter) (u, w) = (.ok stats, u', w) ∧
      u'.contents = u.contents.pass name filter ∧ u'.Sound ∧ u'.closed = false := by
  -- the partition of the other store may have other operands and versions, but has equal values
  obtain ⟨q, hfound, _, hvalue⟩ := partition_congr h (partition_eq_ok_iff.1 hp).2
  have hq := partition_of_found hc hfound
  obtain ⟨ds', hds'⟩ := (PureFilter.decisions_isOk_congr (hs.of_partition hp) (hu.of_partition hq)
    (fun key => (hvalue key).symm) filter).1 ⟨ds, hds⟩
  have hrun := compact_run hq filter w
  rw [hds'] at hrun
  simp only [commit_run hq] at hrun
  have hsound := hu.commit name ds'
  rw [commit_run hq] at hsound
  exact ⟨_, _, hrun, contents_commitDecisions hu hq hds' _, hsound, hc⟩

end MemoryStore

end AppendLists
