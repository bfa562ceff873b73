import AppendLists.Proofs.Memory.Interleaving

namespace AppendLists

/-!
# How a memory store represents its keys

Reading an entry gives nothing if the entry holds nothing, or operands that cannot be combined. The
invariant excludes such entries, so whatever has an entry is read, listed and visited by passes alike.
And no two entries have the same version, which is what a pass relies on to tell what it captured from
what was written since.

* `Partition.Sound.keys_resolved`, `Partition.pairwise_resolved`: what is listed, and in which order;
* `MemoryStore.Distinct`: no version is that of two entries;
* `Inherits`, `inherits_foreground`, `inherits_commit`: where the versions after a step come from;
* `Distinct.step`, `Reachable.distinct`: a step keeps versions apart, and so does every history;
* `scanned_of_commit`, `Sound.scanned_eq_listed`: how many keys a pass reports to have visited;
* `Proper`, `reachable_compact`: passes are among the histories;
* `Reachable.representation`: what holds in every state.
-/

/-! ### What is listed -/

namespace Partition

variable {p : Partition} {next : Nat}

/-- Every key with an entry is listed. -/
theorem Sound.keys_resolved (h : p.Sound next) : p.resolved.map (·.1) = p.entries.keys := by
  rw [resolved_eq]
  apply Table.keys_eq_of_isSome_eq
  intro key
  rw [Table.find?_filterMap]
  exact h.value?_isSome key

/-- Keys are listed in their order. -/
theorem pairwise_resolved (p : Partition) : p.resolved.Pairwise fun a b => a.1 < b.1 :=
  (p.entries.filterMap p.resolve).ordered

/-- As many keys are listed as are captured. -/
theorem Sound.length_resolved (h : p.Sound next) : p.resolved.length = p.captured.length := by
  have hkeys : p.resolved.map (·.1) = p.captured.map (·.key) := by
    rw [h.keys_resolved, keys_captured]
  rw [← List.length_map (·.1), hkeys, List.length_map]

end Partition

namespace MemoryStore

variable {s s' : MemoryStore} {name : String} {key : Bytes} {place : Option (String × Bytes)}

/-- A partition is not found because the store is closed, or because it is not there. -/
theorem closed_or_missing {e : StorageError} (hp : s.partition name = .error e) :
    s.closed = true ∨ s.has name = false := by
  cases hc : s.closed with
  | true => exact .inl rfl
  | false =>
    right
    cases hfound : s.partitions.find? name with
    | none => rw [has, Table.contains, hfound, Option.isSome_none]
    | some p =>
      rw [partition_of_found hc hfound] at hp
      cases hp

/-! ### Versions -/

/-- No version is that of two entries. -/
def Distinct (s : MemoryStore) : Prop :=
  ∀ name name' key key' e e', s.entryAt name key = some e → s.entryAt name' key' = some e' →
    e.version = e'.version → name = name' ∧ key = key'

/-- Each entry of `s'` has the version of the entry that `s` has in its place, except for the one at
`place`, which may have the next version of `s` instead. -/
def Inherits (s s' : MemoryStore) (place : Option (String × Bytes)) : Prop :=
  ∀ name key e', s'.entryAt name key = some e' →
    (∃ e, s.entryAt name key = some e ∧ e.version = e'.version) ∨
      place = some (name, key) ∧ e'.version = s.nextVersion

/-- The version of an entry is past. -/
theorem Sound.version_lt (h : s.Sound) {e : Entry} (he : s.entryAt name key = some e) :
    e.version < s.nextVersion := by
  obtain ⟨p, hp, he⟩ := Option.bind_eq_some_iff.1 he
  exact (h name p hp key e he).stamped

/-- A version that was not handed out before is given to one entry only. -/
theorem Distinct.step (h : s.Distinct) (hs : s.Sound) (hstep : s.Inherits s' place) :
    s'.Distinct := by
  intro name name' key key' e e' he he' hversion
  -- both entries had their versions before, or one has the next one, which no entry had
  rcases hstep _ _ _ he with ⟨e₀, hold, hsame⟩ | ⟨hplace, hnew⟩
  · have hlt := hs.version_lt hold
    rcases hstep _ _ _ he' with ⟨e₀', hold', hsame'⟩ | ⟨-, hnew'⟩
    · exact h _ _ _ _ _ _ hold hold' (by rw [hsame, hsame', hversion])
    · omega
  · rcases hstep _ _ _ he' with ⟨e₀', hold', hsame'⟩ | ⟨hplace', -⟩
    · have hlt := hs.version_lt hold'
      omega
    · rw [hplace] at hplace'
      exact Prod.mk.inj (Option.some.inj hplace')

/-- What does nothing hands down every entry. -/
theorem Inherits.refl (s : MemoryStore) : s.Inherits s none :=
  fun _ _ e he => .inl ⟨e, he, rfl⟩

/-- Another partition under a name, with all versions from where they may come. -/
theorem Inherits.setPartition {p' : Partition}
    (h : ∀ key e', p'.entries.find? key = some e' →
      (∃ e, s.entryAt name key = some e ∧ e.version = e'.version) ∨
        place = some (name, key) ∧ e'.version = s.nextVersion) :
    s.Inherits (s.setPartition name p') place := by
  intro name' key e' he'
  rw [entryAt_setPartition] at he'
  split at he'
  · case isTrue heq =>
    rw [heq]
    exact h key e' he'
  · exact .inl ⟨e', he', rfl⟩

/-- An entry that is written gets the next version, and the others keep theirs. -/
theorem Inherits.insert {p : Partition} {e : Entry} (hp : s.partition name = .ok p)
    (hversion : e.version = s.nextVersion) :
    s.Inherits (s.bumped.setPartition name { p with entries := p.entries.insert key e })
      (some (name, key)) := by
  apply Inherits.setPartition (s := s)
  intro key' e' he'
  rw [Table.find?_insert] at he'
  split at he'
  · case isTrue heq =>
    obtain rfl := Option.some.inj he'
    exact .inr ⟨by rw [heq], hversion⟩
  · exact .inl ⟨e', by rwa [entryAt_of_partition hp], rfl⟩

/-- A partition all of whose entries have the versions of those they come from. -/
theorem Inherits.kept {p p' : Partition} (hp : s.partition name = .ok p)
    (h : ∀ key e', p'.entries.find? key = some e' →
      ∃ e, p.entries.find? key = some e ∧ e.version = e'.version) :
    s.Inherits (s.setPartition name p') none := by
  apply Inherits.setPartition
  intro key e' he'
  rw [entryAt_of_partition hp]
  exact .inl (h key e' he')

/-- A change gives the next version to one entry at most. -/
theorem inherits_apply (m : Mutation) (s : MemoryStore) : ∃ place, s.Inherits (m.apply s).2 place := by
  have ho := m.outcome s
  generalize m.apply s = r at ho
  cases ho with
  | created op hc hname =>
    refine ⟨none, Inherits.setPartition ?_⟩
    intro key e' he'
    cases he'
  | put key value hp => exact ⟨_, Inherits.insert hp rfl⟩
  | queued key operand hp hop => exact ⟨_, Inherits.insert hp rfl⟩
  | @dropped name p key hp =>
    refine ⟨none, Inherits.kept hp ?_⟩
    intro key' e' he'
    rw [Partition.drop, Table.find?_erase] at he'
    split at he'
    · cases he'
    · exact ⟨e', he', rfl⟩
  | refused m e => exact ⟨none, .refl s⟩
  | wasted m e => exact ⟨none, .refl s⟩

/-- So does every call. -/
theorem inherits_foreground (op : Foreground) (s : MemoryStore) :
    ∃ place, s.Inherits (op.apply s).2 place := by
  cases op with
  | change m => exact inherits_apply m s
  | dropPartition name =>
    show ∃ place, s.Inherits (dropPartition name s).2 place
    cases hp : s.partition name with
    | error e =>
      rw [dropPartition_run_of_error hp]
      exact ⟨none, .refl s⟩
    | ok p =>
      rw [dropPartition_run hp]
      -- the partition is gone, and the entries of the others are as they were
      refine ⟨none, ?_⟩
      intro name' key e' he'
      simp only [entryAt, Table.find?_erase] at he'
      split at he'
      · cases he'
      · exact .inl ⟨e', he', rfl⟩

/-- A pass does not renew the entries that it settles. -/
theorem Decision.version_settle {d : Decision} {e e' : Entry} (h : d.settle e = some e') :
    e.version = e'.version := by
  unfold Decision.settle at h
  split at h
  · obtain ⟨value, -, rfl⟩ := Option.map_eq_some_iff.1 h
    rfl
  · rw [Option.some.inj h]

/-- What a pass writes has the version that was captured. -/
theorem version_commitDecisions (ds : List Decision) {p : Partition} {stats : CompactionStats}
    {e' : Entry} (h : (commitDecisions ds p stats).1.entries.find? key = some e') :
    ∃ e, p.entries.find? key = some e ∧ e.version = e'.version := by
  induction ds generalizing p stats with
  | nil => exact ⟨e', h, rfl⟩
  | cons d ds ih =>
    obtain ⟨e₁, he₁, hversion⟩ := ih (p := (commitDecision d p stats).1) h
    rw [find?_commitDecision] at he₁
    split at he₁
    · obtain ⟨e, he, hsettle⟩ := Option.bind_eq_some_iff.1 he₁
      exact ⟨e, he, (Decision.version_settle hsettle).trans hversion⟩
    · exact ⟨e₁, he₁, hversion⟩

/-- A commit hands out no version. -/
theorem inherits_commit (name : String) (ds : List Decision) (s : MemoryStore) :
    s.Inherits (commit name ds s).2 none := by
  cases hp : s.partition name with
  | error e =>
    rw [commit_run_of_error hp]
    exact .refl s
  | ok p =>
    rw [commit_run hp]
    exact Inherits.kept hp fun key e' he' => version_commitDecisions ds he'

/-- Whatever happens to a store, no two of its entries have the same version. -/
theorem Reachable.distinct (h : s.Reachable) : s.Distinct := by
  induction h with
  | empty =>
    intro name name' key key' e e' he
    cases he
  | @call s h op ih =>
    obtain ⟨place, hstep⟩ := inherits_foreground op s
    exact ih.step h.sound hstep
  | commit h name ds ih => exact ih.step h.sound (inherits_commit name ds _)
  | close _ ih => exact ih

/-! ### Passes -/

/-- Committing counts no further keys as scanned. -/
theorem scanned_commitDecision (d : Decision) (p : Partition) (stats : CompactionStats) :
    (commitDecision d p stats).2.scanned = stats.scanned := by
  unfold commitDecision
  split
  · rfl
  · split
    · rfl
    · split <;> rfl

theorem scanned_commitDecisions (ds : List Decision) (p : Partition) (stats : CompactionStats) :
    (commitDecisions ds p stats).2.scanned = stats.scanned := by
  induction ds generalizing p stats with
  | nil => rfl
  | cons d ds ih => rw [commitDecisions, ih, scanned_commitDecision]

/-- A commit that succeeds reports the number of its decisions, whatever store it finds. -/
theorem scanned_of_commit {ds : List Decision} {stats : CompactionStats}
    (h : (commit name ds s).1 = .ok stats) : stats.scanned = ds.length := by
  cases hp : s.partition name with
  | error e =>
    rw [commit_run_of_error hp] at h
    cases h
  | ok p =>
    rw [commit_run hp] at h
    rw [← Except.ok.inj h, scanned_commitDecisions, CompactionStats.visited]

/-- So where one decision was made for each captured key, it reports the number of keys listed. -/
theorem Sound.scanned_eq_listed (hs : s.Sound) {p : Partition} (hp : s.partition name = .ok p)
    {ds : List Decision} (hds : ds.map (·.captured) = p.captured) {stats : CompactionStats}
    (h : (MemoryStore.commit name ds s').1 = .ok stats) :
    ∃ l, (scan name s).1 = .ok l ∧ stats.scanned = l.length := by
  refine ⟨p.resolved, by rw [scan_run hp], ?_⟩
  rw [scanned_of_commit h, (hs.of_partition hp).length_resolved, ← hds, List.length_map]

section

variable {τ : Type} {t : τ} {stats : CompactionStats}

/-- A pass that succeeds has visited every key that was listed when it began, whatever its filter has
done to the store in the meantime. -/
theorem scanned_of_compact (hs : s.Sound) {filter : Option (Filter (MemoryStore × τ))}
    {w : MemoryStore × τ} (h : compact name filter (s, t) = (.ok stats, w)) :
    ∃ l, (scan name s).1 = .ok l ∧ stats.scanned = l.length := by
  cases hp : s.partition name with
  | error e =>
    have hcapture : Store.capture name s = (.error (.access .accessingStore e), s) :=
      capture_run_of_error hp
    rw [compact_of_capture_error hcapture] at h
    cases h
  | ok p =>
    have hcapture : Store.capture name s = (.ok p.captured, s) := capture_run hp
    rcases hds : decideAll filter p.captured (s, t) with ⟨e | ds, s₁, t₁⟩
    · rw [compact_of_decideAll_error hcapture hds] at h
      cases h
    · rw [compact_of_decideAll hcapture hds] at h
      have hcommit : (commit name ds s₁).1 = .ok stats := congrArg Prod.fst h
      exact hs.scanned_eq_listed hp (captured_of_decideAll hds) hcommit

/-- So has a pass with other calls in between. -/
theorem scanned_of_passDuring (hs : s.Sound) {filter : Option (Filter τ)}
    {ops : List Foreground} {w : MemoryStore × τ}
    (h : passDuring name filter ops (s, t) = (.ok stats, w)) :
    ∃ l, (scan name s).1 = .ok l ∧ stats.scanned = l.length := by
  cases hp : s.partition name with
  | error e =>
    simp only [passDuring, capture_run_of_error hp] at h
    cases h
  | ok p =>
    simp only [passDuring, capture_run hp] at h
    rcases hds : decideAll filter p.captured t with ⟨e | ds, t₁⟩
    · rw [hds] at h
      cases h
    · rw [hds] at h
      have hcommit : (commit name ds (Foreground.runAll ops s)).1 = .ok stats :=
        congrArg Prod.fst h
      exact hs.scanned_eq_listed hp (captured_of_decideAll hds) hcommit

/-- What a filter does to the store is that calls and passes are made. -/
def Proper (f : Filter (MemoryStore × τ)) : Prop :=
  ∀ value w, w.1.Reachable → (f.apply value w).2.1.Reachable

/-- A filter that only makes calls leaves a reachable store while a pass decides. -/
theorem reachable_decideAll {filter : Option (Filter (MemoryStore × τ))}
    (hfilter : ∀ f ∈ filter, Proper f) (cs : List Captured) {w : MemoryStore × τ}
    (h : w.1.Reachable) : (decideAll filter cs w).2.1.Reachable := by
  -- the filter may change the store each time it is asked, so the state is general
  induction cs generalizing w with
  | nil => exact h
  | cons c cs ih =>
    have hone : (decideOne filter c w).2.1.Reachable := by
      cases filter with
      | none => exact h
      | some f => exact hfilter f rfl c.value w h
    rw [decideAll_cons]
    rcases hc : decideOne filter c w with ⟨e | outcome, w₁⟩
    · rw [hc] at hone
      rwa [Call.bind_of_error hc]
    · rw [hc] at hone
      have hrest := ih hone
      rw [Call.bind_of_ok hc]
      rcases hds : decideAll filter cs w₁ with ⟨e | ds, w₂⟩
      · rw [hds] at hrest
        rwa [Call.bind_of_error hds]
      · rw [hds] at hrest
        rwa [Call.bind_of_ok hds]

/-- A pass leads to a state that calls and commits lead to, whatever its filter does in between. -/
theorem reachable_compact (h : s.Reachable) (name : String)
    {filter : Option (Filter (MemoryStore × τ))} (hfilter : ∀ f ∈ filter, Proper f) (t : τ) :
    (compact name filter (s, t)).2.1.Reachable := by
  cases hp : s.partition name with
  | error e =>
    have hcapture : Store.capture name s = (.error (.access .accessingStore e), s) :=
      capture_run_of_error hp
    rwa [compact_of_capture_error hcapture]
  | ok p =>
    have hcapture : Store.capture name s = (.ok p.captured, s) := capture_run hp
    have hdecide := reachable_decideAll hfilter p.captured (w := (s, t)) h
    rcases hds : decideAll filter p.captured (s, t) with ⟨e | ds, s₁, t₁⟩
    · rw [hds] at hdecide
      rwa [compact_of_decideAll_error hcapture hds]
    · rw [hds] at hdecide
      rw [compact_of_decideAll hcapture hds]
      exact hdecide.commit name ds

end

/-! ### What holds in every state -/

/-- **Every entry can be read, and its version is its own.** In every state that calls and passes can
lead to, an entry holds a value or operands, and operands only where they can be combined, so it has a
value; its version was handed out, and to no other entry. Therefore a partition that can be listed is
listed with the keys of its entries, in increasing order and with the values that are read, and a pass
that succeeds reports to have visited as many keys as were listed when it began. -/
theorem Reachable.representation (h : s.Reachable) :
    (∀ name p key e, s.partitions.find? name = some p → p.entries.find? key = some e →
      (e.base = none → e.operands ≠ []) ∧ (p.operator = none → e.operands = []) ∧
        e.version < s.nextVersion ∧ (p.resolve e).isSome = true) ∧
    s.Distinct ∧
    (∀ name, match (scan name s).1 with
      | .error e => (s.closed = true ∨ s.has name = false) ∧ ∀ key, (get name key s).1 = .error e
      | .ok l =>
        (l.Pairwise fun a b => a.1 < b.1) ∧
          (∀ key, key ∈ l.map (·.1) ↔ (s.entryAt name key).isSome = true) ∧
          ∀ key value, (key, value) ∈ l ↔ (get name key s).1 = .ok (some value)) ∧
    (∀ {τ : Type} name (filter : Option (Filter (MemoryStore × τ))) t stats w,
      compact name filter (s, t) = (.ok stats, w) →
        ∃ l, (scan name s).1 = .ok l ∧ stats.scanned = l.length) ∧
    (∀ {τ : Type} name (filter : Option (Filter τ)) ops t stats w,
      passDuring name filter ops (s, t) = (.ok stats, w) →
        ∃ l, (scan name s).1 = .ok l ∧ stats.scanned = l.length) := by
  refine ⟨?_, h.distinct, ?_, ?_, ?_⟩
  · intro name p key e hp he
    have hsound := h.sound name p hp
    have hentry := hsound key e he
    exact ⟨hentry.live, hentry.merged, hentry.stamped, hsound.resolve_isSome he⟩
  · -- a partition that is not found is missed by every call in the same way
    intro name
    cases hp : s.partition name with
    | error e =>
      simp only [scan, get, Call.query, hp, Except.map, implies_true, and_true]
      exact closed_or_missing hp
    -- a listing resolves every entry, so it has all keys and the values that are read
    | ok p =>
      rw [scan_run hp]
      refine ⟨p.pairwise_resolved, ?_, ?_⟩
      · intro key
        rw [(h.sound.of_partition hp).keys_resolved, Table.mem_keys_iff, entryAt_of_partition hp]
      · intro key value
        rw [Partition.mem_resolved_iff, get_run hp]
        simp
  · exact fun name filter t stats w hrun => scanned_of_compact h.sound hrun
  · exact fun name filter ops t stats w hrun => scanned_of_passDuring h.sound hrun

/-- A pass whose filter queues an operand each time it is asked: the new key is not visited, and it can
be read afterwards. -/
theorem pass_with_writing_filter :
    let s := Foreground.runAll
      [.change (.create "p" (some (.stringAppend 0x2C))), .change (.put "p" [2] [20]),
        .change (.merge "p" [1] [10]), .change (.merge "p" [2] [21])] MemoryStore.empty
    let writer : Filter (MemoryStore × Unit) :=
      ⟨"writer", fun value (s, t) => (.ok value, (merge "p" [3] [30] s).2, t)⟩
    let s' := (compact "p" (some writer) (s, ())).2.1
    s.Reachable ∧ s'.Reachable ∧
      (∃ stats w, compact "p" (some writer) (s, ()) = (.ok stats, w) ∧ stats.scanned = 2) ∧
      (get "p" [3] s').1 = .ok (some [30, 0x2C, 30]) := by
  intro s writer s'
  have hs : s.Reachable := Reachable.empty.runAll _
  have hwriter : ∀ f ∈ some writer, Proper f := by
    rintro f ⟨rfl⟩ value w hw
    exact hw.call (.change (.merge "p" [3] [30]))
  have hs' : s'.Reachable := reachable_compact hs "p" hwriter ()
  refine ⟨hs, hs', ?_, ?_⟩
  · obtain ⟨-, -, -, hpass, -⟩ := hs.representation
    obtain ⟨l, hl, hscanned⟩ := hpass "p" (some writer) () ⟨2, 0, 0, 2, 0⟩ _ rfl
    obtain rfl : [([1], [10]), ([2], [20, 0x2C, 21])] = l := Except.ok.inj hl
    exact ⟨_, _, rfl, hscanned⟩
  · obtain ⟨-, -, hlisted, -⟩ := hs'.representation
    have hl : (scan "p" s').1
        = .ok [([1], [10]), ([2], [20, 0x2C, 21]), ([3], [30, 0x2C, 30])] := rfl
    have hlisted := hlisted "p"
    rw [hl] at hlisted
    exact (hlisted.2.2 [3] _).1 (by simp)

end MemoryStore

end AppendLists
