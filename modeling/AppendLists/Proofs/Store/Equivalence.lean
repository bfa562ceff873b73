import AppendLists.Proofs.Store.Wrapped

namespace AppendLists

/-!
# Merging at once and merging later look alike

A memory store queues operands and combines them when a key is read or compacted; a wrapped memory
store combines every operand as it arrives. Nobody who calls them can tell which one it is, and
nobody can tell whether a memory store was compacted without a filter in the meantime.

* `StoreRequest`, `Observation`, `StoreRequest.answer`: a call, and what is told in reply apart from
  the wording of errors and what the store keeps for itself;
* `Mirrors`: a wrapped store and a memory store of the same contents;
* `Mirrors.answer`: a call comes out alike on both, and they stay alike;
* `MemoryStore.observations_congr`: memory stores of the same contents answer alike for good;
* `observations_eq`: fresh stores, and passes without a filter.
-/

/-! ### Calls and replies -/

/-- A call on a store. -/
inductive StoreRequest where
  /-- Create a partition, put, merge, or delete. -/
  | change (w : Mutation)
  /-- Read a key. -/
  | get (name : String) (key : Bytes)
  /-- List a partition. -/
  | scan (name : String)
  /-- Compact a partition. -/
  | compact (name : String) (filter : Option PureFilter)

/-- What a call tells its caller. -/
inductive Observation where
  /-- It failed. -/
  | failed
  /-- It succeeded. -/
  | done
  /-- The value of a key. -/
  | value (value : Option Bytes)
  /-- The keys of a partition with their values. -/
  | entries (entries : List (Bytes × Bytes))
  /-- The keys that a pass visited, changed, and removed. -/
  | pass (scanned rewritten removed : Nat)
deriving DecidableEq

/-- What the outcome of a call tells. -/
def observe {σ ε α : Type} (tell : α → Observation) : Except ε α × σ → Observation × σ
  | (.ok a, s) => (tell a, s)
  | (.error _, s) => (.failed, s)

/-- What a call tells, and the store after it. -/
def StoreRequest.answer {σ : Type} [Store σ] : StoreRequest → σ → Observation × σ
  | .change w, s => observe (fun _ => .done) (w.call s)
  | .get name key, s => observe .value (Store.get name key s)
  | .scan name, s => observe .entries (Store.scan name s)
  | .compact name filter, s =>
    let (o, s', _) := observe (fun stats => .pass stats.scanned stats.rewritten stats.removed)
      (AppendLists.compact name (filter.map PureFilter.toFilter) (s, ()))
    (o, s')

/-- What calls in turn tell. -/
def observations {σ : Type} [Store σ] : List StoreRequest → σ → List Observation
  | [], _ => []
  | r :: rs, s => (r.answer s).1 :: observations rs (r.answer s).2

/-- The store after calls in turn. -/
def afterAll {σ : Type} [Store σ] : List StoreRequest → σ → σ
  | [], s => s
  | r :: rs, s => afterAll rs (r.answer s).2

section

variable {σ : Type} [Store σ]

/-- There is one observation for every request. -/
theorem length_observations (rs : List StoreRequest) (s : σ) :
    (observations rs s).length = rs.length := by
  induction rs generalizing s with
  | nil => rfl
  | cons r rs ih => simp [observations, ih]

/-- Requests in turn are observed in turn. -/
theorem observations_append (rs rs' : List StoreRequest) (s : σ) :
    observations (rs ++ rs') s = observations rs s ++ observations rs' (afterAll rs s) := by
  induction rs generalizing s with
  | nil => rfl
  | cons r rs ih => simp [observations, afterAll, ih]

end

/-! ### Stores that look alike -/

/-- A wrapped store and a memory store of the same contents, both open and sound. -/
structure Mirrors (m : MergeOnRead MemoryStore) (s : MemoryStore) : Prop where
  /-- The wrapped store is open and sound. -/
  wrapped : m.Sound
  /-- The memory store is open. -/
  opened : s.closed = false
  /-- The memory store is sound. -/
  sound : s.Sound
  /-- A caller can tell the same of both. -/
  contents : m.contents = s.contents

namespace Mirrors

variable {m : MergeOnRead MemoryStore} {s : MemoryStore}

/-- Two stores without partitions mirror each other. -/
theorem fresh : Mirrors (MergeOnRead.wrap MemoryStore.empty) MemoryStore.empty :=
  ⟨MergeOnRead.Sound.wrap_empty, rfl, MemoryStore.Sound.empty, rfl⟩

/-- A partition is in both stores with the same values, or in none. -/
theorem partition (h : Mirrors m s) (name : String) :
    (∃ e, m.inner.partition name = .error e ∧ s.partition name = .error e) ∨
      ∃ p q, m.inner.partition name = .ok p ∧ s.partition name = .ok q ∧
        ∀ key, p.value? key = q.value? key := by
  have hop := congrFun (congrArg Contents.operator h.contents) name
  rw [MergeOnRead.operator_contents] at hop
  cases hs : s.contents.operator name with
  | none =>
    rw [hs, Option.map_eq_none_iff] at hop
    exact .inl ⟨_, Mutation.partition_of_operator_none h.wrapped.opened hop,
      Mutation.partition_of_operator_none h.opened hs⟩
  | some op =>
    rw [hs] at hop
    obtain ⟨op', hop', _⟩ := Option.map_eq_some_iff.1 hop
    obtain ⟨p, hp, _⟩ := Mutation.partition_of_operator h.wrapped.opened hop'
    obtain ⟨q, hq, _⟩ := Mutation.partition_of_operator h.opened hs
    refine .inr ⟨p, q, hp, hq, fun key => ?_⟩
    rw [← MemoryStore.value?_of_partition hp, ← MemoryStore.value?_of_partition hq]
    exact congrFun (congrFun (congrArg Contents.value h.contents) name) key

/-- A change succeeds on both, with the same effect, or fails on both. -/
theorem change (h : Mirrors m s) (w : Mutation) :
    ((StoreRequest.change w).answer m).1 = ((StoreRequest.change w).answer s).1 ∧
      Mirrors ((StoreRequest.change w).answer m).2 ((StoreRequest.change w).answer s).2 := by
  have hnative : w.call s = w.apply s := by cases w <;> rfl
  have hsound := h.sound.apply w
  have hcontents := h.contents
  simp only [StoreRequest.answer, hnative]
  rcases MergeOnRead.call_effect h.wrapped w with
    ⟨m', hrun, heffect, hm⟩ | ⟨e, e', m', hrun, heffect, hc, hm⟩
  · -- both stores look at the same contents, so a change has the same effect on both or on neither
    rcases w.apply_effect h.opened with
      ⟨s', hrun', heffect', hopen⟩ | ⟨e₁, s', hrun', heffect', -, -⟩
    · rw [hrun, hrun']
      rw [hrun'] at hsound
      rw [hcontents, heffect'] at heffect
      exact ⟨rfl, hm, hopen, hsound, (Except.ok.inj heffect).symm⟩
    · rw [hcontents, heffect'] at heffect
      cases heffect
  · rcases w.apply_effect h.opened with
      ⟨s', hrun', heffect', -⟩ | ⟨e₁, s', hrun', heffect', hc', hopen⟩
    · rw [hcontents, heffect'] at heffect
      cases heffect
    · rw [hrun, hrun']
      rw [hrun'] at hsound
      exact ⟨rfl, hm, hopen, hsound, hc.trans (hcontents.trans hc'.symm)⟩

/-- Reading tells the same, and changes nothing. -/
theorem get (h : Mirrors m s) (name : String) (key : Bytes) :
    ((StoreRequest.get name key).answer m).1 = ((StoreRequest.get name key).answer s).1 ∧
      Mirrors ((StoreRequest.get name key).answer m).2 ((StoreRequest.get name key).answer s).2 := by
  have hm : Store.get name key m = ((MemoryStore.get name key m.inner).1, m) := rfl
  have hs : Store.get name key s = ((MemoryStore.get name key s).1, s) := rfl
  simp only [StoreRequest.answer, hm, hs]
  rcases h.partition name with ⟨e, hp, hq⟩ | ⟨p, q, hp, hq, hvalue⟩
  · have hfail : ∀ {u : MemoryStore}, u.partition name = .error e →
        (MemoryStore.get name key u).1 = .error e := fun hu => by
      simp [MemoryStore.get, Call.query, hu, Except.map]
    rw [hfail hp, hfail hq]
    exact ⟨rfl, h⟩
  · rw [MemoryStore.get_run hp, MemoryStore.get_run hq, hvalue key]
    exact ⟨rfl, h⟩

/-- Listing tells the same, and changes nothing. -/
theorem scan (h : Mirrors m s) (name : String) :
    ((StoreRequest.scan name).answer m).1 = ((StoreRequest.scan name).answer s).1 ∧
      Mirrors ((StoreRequest.scan name).answer m).2 ((StoreRequest.scan name).answer s).2 := by
  have hm : Store.scan name m = ((MemoryStore.scan name m.inner).1, m) := rfl
  have hs : Store.scan name s = ((MemoryStore.scan name s).1, s) := rfl
  have hrun : ∀ u : MemoryStore,
      (MemoryStore.scan name u).1 = (u.partition name).map Partition.resolved := fun _ => rfl
  simp only [StoreRequest.answer, hm, hs, hrun]
  rcases h.partition name with ⟨e, hp, hq⟩ | ⟨p, q, hp, hq, hvalue⟩
  · rw [hp, hq]
    exact ⟨rfl, h⟩
  · rw [hp, hq]
    simp only [Except.map, Partition.resolved_congr hvalue]
    exact ⟨rfl, h⟩

/-- A pass reports the same, and filters both alike; or it fails on both. -/
theorem compact (h : Mirrors m s) (name : String) (filter : Option PureFilter) :
    ((StoreRequest.compact name filter).answer m).1
        = ((StoreRequest.compact name filter).answer s).1 ∧
      Mirrors ((StoreRequest.compact name filter).answer m).2
        ((StoreRequest.compact name filter).answer s).2 := by
  simp only [StoreRequest.answer]
  rcases h.partition name with ⟨e, hp, hq⟩ | ⟨p, q, hp, hq, hvalue⟩
  · -- there is nothing to capture
    have hnative : Store.capture name s = (.error (.access .accessingStore e), s) :=
      MemoryStore.capture_run_of_error hq
    rw [compact_of_capture_error (MergeOnRead.capture_of_error hp),
      compact_of_capture_error hnative]
    exact ⟨rfl, h⟩
  · -- what is captured differs in versions and operands only, and filters do not see them
    have hbindings : (MergeOnRead.listed p.resolved).map Captured.binding
        = q.captured.map Captured.binding := by
      rw [MergeOnRead.bindings_listed, (h.sound.of_partition hq).bindings_captured,
        Partition.resolved_congr hvalue]
    have hnative := MemoryStore.compact_run hq filter ()
    rcases PureFilter.decisions_congr hbindings with
      ⟨e, hds, hds'⟩ | ⟨ds, ds', hds, hds', hcontent⟩
    · rw [hds'] at hnative
      rw [MergeOnRead.compact_of_decisions_error hp hds, hnative]
      exact ⟨rfl, h⟩
    · obtain ⟨m', hrun, hc, hm⟩ := MergeOnRead.compact_of_decisions h.wrapped hp hds ()
      -- the two count what they did in different ways
      obtain ⟨hlength, hremoves, hrewrites⟩ := countP_congr_of_content hcontent
      have hcaptured := PureFilter.captured_of_decisions hds'
      have hstats := MemoryStore.stats_commitDecisions (Partition.nodup_of_captured hcaptured)
        (fun d hd => Partition.current_of_captured hcaptured hd) (.visited ds'.length)
      have hsound := h.sound.commit name ds'
      have hfiltered := MemoryStore.contents_commitDecisions h.sound hq hds' (.visited ds'.length)
      rw [hds'] at hnative
      simp only [MemoryStore.commit_run hq] at hnative hsound
      rw [hrun, hnative, hstats]
      refine ⟨?_, hm, h.opened, hsound, hc.trans ?_⟩
      · simp only [observe, CompactionStats.visited, Nat.zero_add, hlength, hremoves, hrewrites]
      · rw [h.contents]
        exact hfiltered.symm

/-- Every call tells the same, and the stores stay alike. -/
theorem answer (h : Mirrors m s) (r : StoreRequest) :
    (r.answer m).1 = (r.answer s).1 ∧ Mirrors (r.answer m).2 (r.answer s).2 := by
  cases r with
  | change w => exact h.change w
  | get name key => exact h.get name key
  | scan name => exact h.scan name
  | compact name filter => exact h.compact name filter

/-- So do calls in turn. -/
theorem observations_eq_native (h : Mirrors m s) (rs : List StoreRequest) :
    observations rs m = observations rs s := by
  induction rs generalizing m s with
  | nil => rfl
  | cons r rs ih =>
    obtain ⟨hsame, hnext⟩ := h.answer r
    rw [observations, observations, hsame, ih hnext]

/-- They do so behind any requests. -/
theorem afterAll (h : Mirrors m s) (rs : List StoreRequest) :
    Mirrors (AppendLists.afterAll rs m) (AppendLists.afterAll rs s) := by
  induction rs generalizing m s with
  | nil => exact h
  | cons r rs ih => exact ih (h.answer r).2

/-- A memory store inside a wrapper that merges as its partitions do. -/
theorem of_native {u : MemoryStore} (hopen : u.closed = false) (hs : u.Sound) :
    Mirrors ⟨u, u.partitions.filterMap Partition.operator⟩ u := by
  have hways : ∀ name, (u.partitions.filterMap Partition.operator).find? name
      = (u.partitions.find? name).bind Partition.operator := fun name =>
    Table.find?_filterMap ..
  refine ⟨⟨hopen, hs, fun name hname => ?_⟩, hopen, hs, ?_⟩
  · show (u.partitions.filterMap Partition.operator).find? name = none
    rw [hways, Option.map_eq_none_iff.1 hname]
    rfl
  · apply Contents.ext
    · funext name
      rw [MergeOnRead.operator_contents]
      simp only [hways, MemoryStore.contents]
      cases u.partitions.find? name <;> rfl
    · rfl

end Mirrors

/-! ### Memory stores of the same contents -/

/-- A pass without a filter changes no contents. -/
theorem Contents.pass_none (c : Contents) (name : String) : c.pass name none = c := by
  apply Contents.ext
  · rfl
  · funext name' key
    show (if name' = name then _ else _) = _
    split
    · cases c.value name' key <;> rfl
    · rfl

namespace MemoryStore

variable {s u : MemoryStore}

/-- How operands are kept makes no difference to what any later calls tell. -/
theorem observations_congr (hopen : s.closed = false) (hs : s.Sound) (hopen' : u.closed = false)
    (hu : u.Sound) (h : s.contents = u.contents) (rs : List StoreRequest) :
    observations rs s = observations rs u := by
  -- both are mirrored by one wrapped store
  have hmirror := Mirrors.of_native hopen hs
  have hmirror' : Mirrors _ u := ⟨hmirror.wrapped, hopen', hu, hmirror.contents.trans h⟩
  rw [← hmirror.observations_eq_native rs, hmirror'.observations_eq_native rs]

/-- A pass without a filter leaves the contents alone, whether it succeeds or not. -/
theorem contents_answer_unfiltered (hopen : s.closed = false) (hs : s.Sound) (name : String) :
    ((StoreRequest.compact name none).answer s).2.contents = s.contents := by
  simp only [StoreRequest.answer]
  cases hop : s.contents.operator name with
  | none =>
    -- without the partition nothing is captured
    have hcapture : Store.capture name s = (.error (.access .accessingStore _), s) :=
      capture_run_of_error (Mutation.partition_of_operator_none hopen hop)
    rw [compact_of_capture_error hcapture]
    rfl
  | some op =>
    obtain ⟨p, hp, _⟩ := Mutation.partition_of_operator hopen hop
    have hrun := compact_run hp none ()
    cases hds : PureFilter.decisions none p.captured with
    | error e =>
      rw [hds] at hrun
      rw [hrun]
      rfl
    | ok ds =>
      -- what is captured is written back as it was
      have hfiltered := contents_commitDecisions hs hp hds (.visited ds.length)
      rw [hds] at hrun
      simp only [commit_run hp] at hrun
      rw [hrun]
      exact hfiltered.trans (Contents.pass_none _ _)

/-- Nor does it make a difference to what any later calls tell. -/
theorem observations_after_unfiltered (hopen : s.closed = false) (hs : s.Sound) (name : String)
    (rs : List StoreRequest) :
    observations rs ((StoreRequest.compact name none).answer s).2 = observations rs s := by
  have hnext := ((Mirrors.of_native hopen hs).answer (.compact name none)).2
  exact observations_congr hnext.opened hnext.sound hopen hs
    (contents_answer_unfiltered hopen hs name) rs

end MemoryStore

/-! ### Fresh stores -/

/-- Any calls on a fresh wrapped memory store and on a fresh memory store tell the same, call by
call. On the memory store, where operands wait, a pass without a filter at any point leaves what all
other calls tell as it is. -/
theorem observations_eq :
    (∀ rs : List StoreRequest,
      observations rs (MergeOnRead.wrap MemoryStore.empty) = observations rs MemoryStore.empty) ∧
    ∀ (before : List StoreRequest) (name : String) (after : List StoreRequest),
      (observations (before ++ .compact name none :: after) MemoryStore.empty).eraseIdx
          before.length
        = observations (before ++ after) MemoryStore.empty := by
  refine ⟨Mirrors.fresh.observations_eq_native, fun before name after => ?_⟩
  have hstate := Mirrors.fresh.afterAll before
  rw [observations_append, observations_append, observations,
    MemoryStore.observations_after_unfiltered hstate.opened hstate.sound,
    List.eraseIdx_append_of_length_le (Nat.le_of_eq (length_observations ..)),
    length_observations, Nat.sub_self]
  rfl

end AppendLists
