import AppendLists.Proofs.Memory.Pass

namespace AppendLists

/-!
# Passes that overlap other calls

A compaction pass captures, asks its filter, and commits; in between the store is open to other
calls. No such call is lost, and the pass still takes effect wherever no call got in its way. What
carries the argument is that a version is handed out once: a key that was touched since the capture
is gone, or its entry has a version that the capture cannot have seen (`Renewed`), whatever was
deleted, dropped and created again in the meantime.

* `Foreground`, `Foreground.runAll`: the calls that may come in between;
* `Touched`: whether one of them succeeded on a key;
* `MemoryStore.Reachable`: the states that a store can get into;
* `passDuring`: a pass with calls between capture and commit, `passDuring_nil`;
* `Reachable.passDuring_loses_nothing`: what is found after such a pass.
-/

/-! ### Calls in the foreground -/

/-- A call that may come between the steps of a pass. -/
inductive Foreground where
  /-- A change of one partition, or a new one. -/
  | change (m : Mutation)
  /-- The end of a partition with everything in it. -/
  | dropPartition (name : String)
deriving DecidableEq

namespace Foreground

/-- The call on a store. -/
def apply : Foreground → Call MemoryStore StorageError Unit
  | .change m => m.apply
  | .dropPartition name => MemoryStore.dropPartition name

/-- The store after calls in turn; those that fail are included. -/
def runAll : List Foreground → MemoryStore → MemoryStore
  | [], s => s
  | op :: ops, s => runAll ops (op.apply s).2

/-- Whether the call writes or removes a key, if it succeeds. -/
def touches (name : String) (key : Bytes) : Foreground → Bool
  | .change (.put name' key' _) | .change (.merge name' key' _) | .change (.delete name' key') =>
    name' = name ∧ key' = key
  | .change (.create _ _) => false
  | .dropPartition name' => name' = name

/-- Whether one of the calls succeeded in writing or removing a key. -/
def Touched (name : String) (key : Bytes) : List Foreground → MemoryStore → Prop
  | [], _ => False
  | op :: ops, s =>
    (op.touches name key = true ∧ (op.apply s).1 = .ok ()) ∨ Touched name key ops (op.apply s).2

end Foreground

namespace MemoryStore

/-- The states that a store can get into. Of a pass only the commit changes anything; its other
steps may lie anywhere before, so the decisions may be any. -/
inductive Reachable : MemoryStore → Prop where
  /-- The new store. -/
  | empty : Reachable MemoryStore.empty
  /-- A call. -/
  | call {s : MemoryStore} (h : Reachable s) (op : Foreground) : Reachable (op.apply s).2
  /-- The commit of a pass. -/
  | commit {s : MemoryStore} (h : Reachable s) (name : String) (ds : List Decision) :
      Reachable (MemoryStore.commit name ds s).2
  /-- The end of all calls. -/
  | close {s : MemoryStore} (h : Reachable s) : Reachable s.close

variable {s : MemoryStore} {name : String} {key : Bytes}

/-- A partition that is dropped is gone with all its entries. -/
theorem dropPartition_run {p : Partition} (hp : s.partition name = .ok p) :
    dropPartition name s = (.ok (), { s with partitions := s.partitions.erase name }) := by
  simp [dropPartition, hp]

/-- One that is not there cannot be dropped. -/
theorem dropPartition_run_of_error {e : StorageError} (hp : s.partition name = .error e) :
    dropPartition name s = (.error e, s) := by
  simp [dropPartition, hp]

/-- Every call in the foreground keeps the invariant. -/
theorem Sound.foreground (h : s.Sound) (op : Foreground) : (op.apply s).2.Sound := by
  cases op with
  | change m => exact h.apply m
  | dropPartition name =>
    show (dropPartition name s).2.Sound
    cases hp : s.partition name with
    | error e =>
      rw [dropPartition_run_of_error hp]
      exact h
    | ok p =>
      rw [dropPartition_run hp]
      -- what is left was there before, and the next version is the same
      intro name' p' hp'
      rw [Table.find?_erase] at hp'
      split at hp'
      · cases hp'
      · exact h name' p' hp'

/-- The invariant holds in every state that a store can get into. -/
theorem Reachable.sound (h : s.Reachable) : s.Sound := by
  induction h with
  | empty => exact Sound.empty
  | call _ op ih => exact ih.foreground op
  | commit _ name ds ih => exact ih.commit name ds
  | close _ ih => exact ih.close

/-- What calls lead to from a reachable store is reachable. -/
theorem Reachable.runAll (h : s.Reachable) (ops : List Foreground) :
    (Foreground.runAll ops s).Reachable := by
  induction ops generalizing s with
  | nil => exact h
  | cons op ops ih => exact ih (h.call op)

/-! ### Entries under foreground calls -/

/-- The entry of a key of a partition. -/
def entryAt (s : MemoryStore) (name : String) (key : Bytes) : Option Entry :=
  (s.partitions.find? name).bind fun p => p.entries.find? key

/-- Setting a partition changes the entries of that partition only. -/
theorem entryAt_setPartition (s : MemoryStore) (name name' : String) (p : Partition) (key : Bytes) :
    (s.setPartition name p).entryAt name' key
      = if name' = name then p.entries.find? key else s.entryAt name' key := by
  unfold entryAt
  rw [find?_setPartition]
  by_cases h : name' = name <;> simp [h]

/-- The entry of a key is the one in its partition. -/
theorem entryAt_of_partition {p : Partition} (hp : s.partition name = .ok p) :
    s.entryAt name key = p.entries.find? key := by
  simp [entryAt, (partition_eq_ok_iff.1 hp).2]

/-- Another partition under a name makes no difference for a key that it binds alike. -/
theorem entryAt_setPartition_of_find? {name' : String} {p p' : Partition}
    (hp : s.partition name' = .ok p)
    (h : name = name' → p'.entries.find? key = p.entries.find? key) :
    (s.setPartition name' p').entryAt name key = s.entryAt name key := by
  rw [entryAt_setPartition]
  split
  · case isTrue heq => rw [h heq, heq, entryAt_of_partition hp]
  · rfl

/-- A call that does not succeed in touching a key leaves its entry alone. -/
theorem entryAt_foreground {op : Foreground}
    (h : ¬ (op.touches name key = true ∧ (op.apply s).1 = .ok ())) :
    (op.apply s).2.entryAt name key = s.entryAt name key := by
  cases op with
  | change m =>
    have ho : m.Outcome s ((Foreground.change m).apply s) := m.outcome s
    generalize (Foreground.change m).apply s = r at h ho
    cases ho with
    | refused e => rfl
    | wasted e => rfl
    | @created name' op hc hname =>
      -- a new partition has no entries, and there were none under its name
      rw [entryAt_setPartition]
      split
      · case isTrue heq => simp [entryAt, heq, hname]
      · rfl
    | @put name' p key' value hp =>
      apply entryAt_setPartition_of_find? (s := s.bumped) hp
      rintro rfl
      have hkey : key ≠ key' := by
        rintro rfl
        simp [Foreground.touches] at h
      simp [Partition.put, hkey]
    | @queued name' p op key' operand hp hop =>
      apply entryAt_setPartition_of_find? (s := s.bumped) hp
      rintro rfl
      have hkey : key ≠ key' := by
        rintro rfl
        simp [Foreground.touches] at h
      simp [Partition.queue, hkey]
    | @dropped name' p key' hp =>
      apply entryAt_setPartition_of_find? hp
      rintro rfl
      have hkey : key ≠ key' := by
        rintro rfl
        simp [Foreground.touches] at h
      simp [Partition.drop, hkey]
  | dropPartition name' =>
    have hdrop : (Foreground.dropPartition name').apply s = dropPartition name' s := rfl
    rw [hdrop] at h ⊢
    cases hp : s.partition name' with
    | error e => rw [dropPartition_run_of_error hp]
    | ok p =>
      rw [dropPartition_run hp] at h ⊢
      have hname : name ≠ name' := by
        rintro rfl
        simp [Foreground.touches] at h
      simp [entryAt, hname]

/-- The entry of the key, if there is one, has a version from `n` on. -/
def Renewed (n : Nat) (name : String) (key : Bytes) (s : MemoryStore) : Prop :=
  ∀ e, s.entryAt name key = some e → n ≤ e.version

/-- A call that succeeds in touching a key removes its entry or gives it a new version. -/
theorem renewed_of_touches {op : Foreground} (ht : op.touches name key = true)
    (hok : (op.apply s).1 = .ok ()) : Renewed s.nextVersion name key (op.apply s).2 := by
  -- what was written has the version handed out for it, and what was removed has none
  intro e he
  cases op with
  | change m =>
    have ho : m.Outcome s ((Foreground.change m).apply s) := m.outcome s
    generalize (Foreground.change m).apply s = r at hok ho he
    cases ho with
    | refused e => cases hok
    | wasted e => cases hok
    | created op hc hname => simp [Foreground.touches] at ht
    | @put name' p key' value hp =>
      obtain ⟨rfl, rfl⟩ : name' = name ∧ key' = key := by simpa [Foreground.touches] using ht
      obtain rfl : _ = e := by simpa [entryAt_setPartition, Partition.put] using he
      exact Nat.le_refl _
    | @queued name' p op key' operand hp hop =>
      obtain ⟨rfl, rfl⟩ : name' = name ∧ key' = key := by simpa [Foreground.touches] using ht
      obtain rfl : _ = e := by simpa [entryAt_setPartition, Partition.queue] using he
      exact Nat.le_refl _
    | @dropped name' p key' hp =>
      obtain ⟨rfl, rfl⟩ : name' = name ∧ key' = key := by simpa [Foreground.touches] using ht
      simp [entryAt_setPartition, Partition.drop] at he
  | dropPartition name' =>
    have hdrop : (Foreground.dropPartition name').apply s = dropPartition name' s := rfl
    rw [hdrop] at hok he
    obtain rfl : name' = name := by simpa [Foreground.touches] using ht
    cases hp : s.partition name' with
    | error e =>
      rw [dropPartition_run_of_error hp] at hok
      cases hok
    | ok p =>
      rw [dropPartition_run hp] at he
      simp [entryAt] at he

/-- Versions are handed out in increasing order. -/
theorem nextVersion_foreground_le (s : MemoryStore) (op : Foreground) :
    s.nextVersion ≤ (op.apply s).2.nextVersion := by
  cases op with
  | change m =>
    have ho : m.Outcome s ((Foreground.change m).apply s) := m.outcome s
    generalize (Foreground.change m).apply s = r at ho
    cases ho <;> simp [setPartition, bumped]
  | dropPartition name' =>
    show s.nextVersion ≤ (dropPartition name' s).2.nextVersion
    cases hp : s.partition name' with
    | error e => simp only [dropPartition_run_of_error hp, Nat.le_refl]
    | ok p => simp only [dropPartition_run hp, Nat.le_refl]

/-- What was renewed stays so: later writes have later versions. -/
theorem Renewed.foreground {n : Nat} (h : Renewed n name key s) (hn : n ≤ s.nextVersion)
    (op : Foreground) : Renewed n name key (op.apply s).2 := by
  intro e he
  by_cases ht : op.touches name key = true ∧ (op.apply s).1 = .ok ()
  · exact Nat.le_trans hn (renewed_of_touches ht.1 ht.2 e he)
  · rw [entryAt_foreground ht] at he
    exact h e he

theorem Renewed.runAll {n : Nat} (ops : List Foreground) (h : Renewed n name key s)
    (hn : n ≤ s.nextVersion) : Renewed n name key (Foreground.runAll ops s) := by
  induction ops generalizing s with
  | nil => exact h
  | cons op ops ih =>
    exact ih (h.foreground hn op) (Nat.le_trans hn (nextVersion_foreground_le s op))

/-- Calls that do not touch a key leave its entry alone. -/
theorem entryAt_runAll {ops : List Foreground} (h : ¬ Foreground.Touched name key ops s) :
    (Foreground.runAll ops s).entryAt name key = s.entryAt name key := by
  induction ops generalizing s with
  | nil => rfl
  | cons op ops ih =>
    obtain ⟨hop, hops⟩ := not_or.1 h
    rw [Foreground.runAll, ih hops, entryAt_foreground hop]

/-- A key that is touched is gone or has a version that was not handed out before. -/
theorem renewed_runAll {ops : List Foreground} (h : Foreground.Touched name key ops s) :
    Renewed s.nextVersion name key (Foreground.runAll ops s) := by
  induction ops generalizing s with
  | nil => cases h
  | cons op ops ih =>
    have hle := nextVersion_foreground_le s op
    rcases h with ⟨ht, hok⟩ | hops
    · -- renewed here, and no later call can take that back
      exact (renewed_of_touches ht hok).runAll ops hle
    · intro e he
      exact Nat.le_trans hle (ih hops e he)

/-! ### A pass with calls in between -/

variable {τ : Type}

/-- A pass over a partition, whose filter has a state of its own, with `ops` called between capture
and commit. If the pass ends early, the calls are made all the same. -/
def passDuring (name : String) (filter : Option (Filter τ)) (ops : List Foreground) :
    Call (MemoryStore × τ) StateError CompactionStats := fun (s, t) =>
  let s' := Foreground.runAll ops s
  match (capture name s).1 with
  | .error e => (.error e, s', t)
  | .ok captured =>
    match decideAll filter captured t with
    | (.error e, t) => (.error e, s', t)
    | (.ok ds, t) =>
      let (r, s') := MemoryStore.commit name ds s'
      (r, s', t)

/-- Without calls in between it is the pass of the store. -/
theorem passDuring_nil (name : String) (filter : Option (Filter τ)) (s : MemoryStore) (t : τ) :
    passDuring name filter [] (s, t) = compact name (filter.map Filter.beside) (s, t) := by
  cases hp : s.partition name with
  | error e =>
    have hcapture := capture_run_of_error hp
    rw [compact_of_capture_error hcapture]
    simp only [passDuring, hcapture, Foreground.runAll]
  | ok p =>
    have hcapture : Store.capture name s = (.ok p.captured, s) := capture_run hp
    have hbeside := decideAll_beside filter p.captured s t
    simp only [passDuring, capture_run hp, Foreground.runAll]
    rcases hds : decideAll filter p.captured t with ⟨e | ds, t'⟩
    · rw [hds] at hbeside
      rw [compact_of_decideAll_error hcapture hbeside]
    · rw [hds] at hbeside
      rw [compact_of_decideAll hcapture hbeside]
      rfl

/-- Two stores have the same value and the same number of operands for a key. -/
def SameAt (name : String) (key : Bytes) (s u : MemoryStore) : Prop :=
  (get name key s).1 = (get name key u).1 ∧ s.pending name key = u.pending name key

/-- The same entry in partitions that merge alike is the same value and the same operands. -/
theorem sameAt_of_entryAt_eq {s u : MemoryStore} {p q : Partition} (hp : s.partition name = .ok p)
    (hq : u.partition name = .ok q) (hop : p.operator = q.operator)
    (h : p.entries.find? key = q.entries.find? key) : SameAt name key s u := by
  obtain ⟨op, entries⟩ := p
  obtain ⟨_, entries'⟩ := q
  cases hop
  constructor
  · simp only [get, Call.query, hp, hq, Except.map]
    have hresolve : (Partition.mk op entries).resolve = (Partition.mk op entries').resolve := rfl
    rw [h, hresolve]
  · simp only [pending, (partition_eq_ok_iff.1 hp).2, (partition_eq_ok_iff.1 hq).2,
      Option.bind_some]
    rw [h]

/-- A version that was captured is past. -/
theorem version_lt_of_mem_captured {p : Partition} {next : Nat} (h : p.Sound next) {c : Captured}
    (hc : c ∈ p.captured) : c.version < next := by
  obtain ⟨e, he, hce⟩ := Partition.mem_captured_iff.1 hc
  rw [hce]
  exact (h c.key e he).stamped

section Commit

/-! ### What the commit finds

The partition `p` is captured from `s`, the calls `ops` follow, and `q` is what the commit finds
under the name. -/

variable {ops : List Foreground} {p q : Partition} {ds : List Decision} {d : Decision}

/-- A key that was not touched is found as it was captured, and gets its outcome. -/
theorem find?_commit_of_untouched (hp : s.partition name = .ok p)
    (hq : (Foreground.runAll ops s).partition name = .ok q)
    (hds : ds.map (·.captured) = p.captured) (hd : d ∈ ds)
    (ht : ¬ Foreground.Touched name d.captured.key ops s) (stats : CompactionStats) :
    (commitDecisions ds q stats).1.entries.find? d.captured.key
      = d.outcome.map fun value => ⟨some value, [], d.captured.version⟩ := by
  apply Partition.find?_commitDecisions_of_unchanged hds hd
  rw [← entryAt_of_partition hq, entryAt_runAll ht, entryAt_of_partition hp]

/-- A key that was touched is left as the calls left it. -/
theorem find?_commit_of_touched (hs : s.Sound) (hp : s.partition name = .ok p)
    (hq : (Foreground.runAll ops s).partition name = .ok q)
    (hds : ds.map (·.captured) = p.captured) (hd : d ∈ ds)
    (ht : Foreground.Touched name d.captured.key ops s) (stats : CompactionStats) :
    (commitDecisions ds q stats).1.entries.find? d.captured.key
      = q.entries.find? d.captured.key := by
  have hmem : d.captured ∈ p.captured := hds ▸ List.mem_map.2 ⟨d, hd, rfl⟩
  have hlt : d.captured.version < s.nextVersion :=
    version_lt_of_mem_captured (hs.of_partition hp) hmem
  rw [find?_commitDecisions_of_mem (Partition.nodup_of_captured hds) hd]
  cases he : q.entries.find? d.captured.key with
  | none => rfl
  | some e =>
    -- what is found now has a version that was handed out after the capture
    have hle : s.nextVersion ≤ e.version :=
      renewed_runAll ht e (by rw [entryAt_of_partition hq, he])
    rw [Option.bind_some, Decision.settle, if_neg (by omega)]

end Commit

/-- **No lost update.** After a pass with calls in between, a captured key that no call touched has
the outcome that the filter decided for it and nothing left to combine, and every other key, of the
partition or of another one, is as the calls alone leave it; so is the whole store if the pass
fails. -/
theorem Reachable.passDuring_loses_nothing {s : MemoryStore} (hs : s.Reachable) (name : String)
    (filter : Option (Filter τ)) (ops : List Foreground) (t : τ) :
    match passDuring name filter ops (s, t) with
    | (.error _, s', _) => s' = Foreground.runAll ops s
    | (.ok _, s', t') =>
      ∃ captured ds, capture name s = (.ok captured, s) ∧
        decideAll filter captured t = (.ok ds, t') ∧ ds.map (·.captured) = captured ∧
        (∀ d ∈ ds, ¬ Foreground.Touched name d.captured.key ops s →
          (get name d.captured.key s').1 = .ok d.outcome ∧
            s'.pending name d.captured.key = 0) ∧
        (∀ d ∈ ds, Foreground.Touched name d.captured.key ops s →
          SameAt name d.captured.key s' (Foreground.runAll ops s)) ∧
        (∀ key, key ∉ captured.map (·.key) → SameAt name key s' (Foreground.runAll ops s)) ∧
        (∀ other, other ≠ name → ∀ key, SameAt other key s' (Foreground.runAll ops s)) := by
  cases hp : s.partition name with
  | error e => simp [passDuring, capture_run_of_error hp]
  | ok p =>
    rcases hds : decideAll filter p.captured t with ⟨e | ds, t'⟩
    · simp [passDuring, capture_run hp, hds]
    cases hq : (Foreground.runAll ops s).partition name with
    | error e => simp [passDuring, capture_run hp, hds, commit_run_of_error hq]
    | ok q =>
      -- the partition found at the commit need not be the one that was captured
      have hcaptured := captured_of_decideAll hds
      simp only [passDuring, capture_run hp, hds, commit_run hq]
      generalize hr : (commitDecisions ds q (.visited ds.length)).1 = r
      have hop : r.operator = q.operator := by rw [← hr, operator_commitDecisions]
      have hafter : ((Foreground.runAll ops s).setPartition name r).partition name = .ok r := by
        obtain ⟨hc, hfound⟩ := partition_eq_ok_iff.1 hq
        exact partition_of_found hc (by simp)
      -- captured and untouched, captured and touched, not captured, in another partition
      refine ⟨p.captured, ds, rfl, hds, hcaptured, ?_, ?_, ?_, ?_⟩
      · intro d hd ht
        have hfound := find?_commit_of_untouched hp hq hcaptured hd ht (.visited ds.length)
        rw [hr] at hfound
        constructor
        · simp only [get, Call.query, hafter, Except.map, hfound]
          cases d.outcome <;> rfl
        · simp only [pending, (partition_eq_ok_iff.1 hafter).2, Option.bind_some, hfound]
          cases d.outcome <;> rfl
      · intro d hd ht
        apply sameAt_of_entryAt_eq hafter hq hop
        rw [← hr]
        exact find?_commit_of_touched hs.sound hp hq hcaptured hd ht _
      · intro key hkey
        apply sameAt_of_entryAt_eq hafter hq hop
        rw [← hr]
        apply find?_commitDecisions_of_not_mem
        rwa [← hcaptured, List.map_map] at hkey
      · intro other hother key
        have hsame : ((Foreground.runAll ops s).setPartition name r).partitions.find? other
            = (Foreground.runAll ops s).partitions.find? other := by simp [hother]
        constructor
        · simp only [get, Call.query, partition, hsame]
          rfl
        · simp only [pending, hsame]

/-- A key that is deleted and written again during a pass that removes everything keeps what was
written, and a key that nobody touched is removed. -/
theorem passDuring_keeps_recreated_key :
    let s := Foreground.runAll
      [.change (.create "p" (some (.stringAppend 0x2C))), .change (.put "p" [1] [10]),
        .change (.merge "p" [2] [20])] MemoryStore.empty
    let ops : List Foreground := [.change (.delete "p" [1]), .change (.put "p" [1] [11])]
    let removal : Filter Unit := .ofFunction "removal" fun _ => .ok none
    s.Reachable ∧ ∃ stats s', passDuring "p" (some removal) ops (s, ()) = (.ok stats, s', ()) ∧
      (get "p" [1] s').1 = .ok (some [11]) ∧ (get "p" [2] s').1 = .ok none := by
  intro s ops removal
  have hs : s.Reachable := Reachable.empty.runAll _
  have h := hs.passDuring_loses_nothing "p" (some removal) ops ()
  obtain ⟨captured, ds, hc, hds, -, huntouched, htouched, -, -⟩ := h
  obtain rfl : _ = captured := Except.ok.inj (Prod.mk.inj hc).1
  obtain rfl : _ = ds := Except.ok.inj (Prod.mk.inj hds).1
  refine ⟨hs, ⟨2, 0, 1, 1, 1⟩, _, rfl, ?_, ?_⟩
  · have htouch : Foreground.Touched "p" [1] ops s := .inl ⟨rfl, rfl⟩
    exact (htouched ⟨⟨[1], 1, 0, some [10]⟩, none⟩ (.head _) htouch).1.trans rfl
  · have huntouch : ¬ Foreground.Touched "p" [2] ops s := by
      rintro (⟨ht, -⟩ | ⟨ht, -⟩ | ht)
      · cases ht
      · cases ht
      · exact ht
    exact (huntouched ⟨⟨[2], 2, 1, some [20]⟩, none⟩ (.tail _ (.head _)) huntouch).1

end MemoryStore

end AppendLists
