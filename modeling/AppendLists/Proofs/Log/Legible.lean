import AppendLists.Proofs.Log.Durable

namespace AppendLists

/-!
# Logs that can be read

A pass that fails at its checkpoint leaves values in memory that the log does not tell. It leaves the
partitions alone, though, and whether a change is refused depends on these alone. So whatever happens
to a store, its log consists of changes that can be made one after the other.

* `Mutation.effect_of_operator`: partitions decide whether a change is refused;
* `LogStore.Attainable`: the stores that calls and restarts can lead to, failed passes included;
* `LogStore.Legible`, `Attainable.legible`: what holds of their logs.
-/

/-- Where there are the same partitions, a change succeeds as well, and makes the same partitions. -/
theorem Mutation.effect_of_operator {c c' d : Contents} {m : Mutation} (h : m.effect c = .ok c')
    (hop : d.operator = c.operator) : ∃ d', m.effect d = .ok d' ∧ d'.operator = c'.operator := by
  have hname : ∀ name, d.operator name = c.operator name := congrFun hop
  cases m with
  | create name op =>
    simp only [effect, hname] at h ⊢
    split at h
    · cases h
    · obtain rfl := Except.ok.inj h
      refine ⟨_, rfl, ?_⟩
      rw [Contents.addPartition, Contents.addPartition, hop]
  | put name key value =>
    simp only [effect, hname] at h ⊢
    split at h
    · obtain rfl := Except.ok.inj h
      exact ⟨_, rfl, hop⟩
    · cases h
  | merge name key operand =>
    simp only [effect, hname] at h ⊢
    split at h
    · obtain rfl := Except.ok.inj h
      exact ⟨_, rfl, hop⟩
    · cases h
    · cases h
  | delete name key =>
    simp only [effect, hname] at h ⊢
    split at h
    · obtain rfl := Except.ok.inj h
      exact ⟨_, rfl, hop⟩
    · cases h

namespace LogStore

/-! ### Stores with any history -/

/-- The stores that `n` calls and restarts lead to from an empty directory, whether these succeed or
not. Of a pass only the commit changes anything, whatever was decided before. -/
inductive Attainable (config : StoreConfig) : Nat → LogStore → Prop where
  /-- The new store. -/
  | opened {s : LogStore} (hopen : (openVolume config (some .empty)).1 = .ok s) :
      Attainable config 0 s
  /-- A change. -/
  | change {n : Nat} {s : LogStore} (h : Attainable config n s) (m : Mutation) :
      Attainable config (n + 1) (logThenApply m s).2
  /-- A synchronization. -/
  | sync {n : Nat} {s : LogStore} (h : Attainable config n s) : Attainable config (n + 1) s.sync
  /-- A checkpoint. -/
  | checkpoint {n : Nat} {s : LogStore} (h : Attainable config n s) :
      Attainable config (n + 1) (LogStore.checkpoint s).2
  /-- The commit of a pass. -/
  | commit {n : Nat} {s : LogStore} (h : Attainable config n s) (name : String)
      (ds : List Decision) : Attainable config (n + 1) (LogStore.commit name ds s).2
  /-- A restart. -/
  | restart {n : Nat} {s s' : LogStore} (h : Attainable config n s)
      (hopen : (openVolume config (some s.shut)).1 = .ok s') : Attainable config (n + 1) s'

/-- The log of a store consists of at most `n` changes, numbered from one on, that can be made in
turn and lead to the partitions of the store. -/
structure Legible (s : LogStore) (ms : List Mutation) (n : Nat) : Prop where
  /-- The log, as far as it is on disk and beyond. -/
  logged : ∃ log, s.written ++ s.buffered = logHeader ++ log ∧
    Logged s.config.maxEntrySize 0 ms log
  /-- The number of the next change. -/
  next : s.nextSeq = ms.length + 1
  /-- What the log replays to. -/
  replays : ∃ memory, Mutation.applyAll ms MemoryStore.empty = .ok memory ∧
    memory.contents.operator = s.memory.contents.operator
  /-- The store is open. -/
  opened : s.memory.closed = false
  /-- Its contents satisfy the invariant of memory stores. -/
  sound : s.memory.Sound
  /-- The changes of the log. -/
  count : ms.length ≤ n
  /-- The changes of a checkpoint. -/
  weight : s.memory.weight ≤ n

variable {s s' : LogStore} {ms : List Mutation} {name : String} {n n' : Nat} {config : StoreConfig}

/-- A log that replays to all of the contents can be read. -/
theorem Within.legible (h : s.Within ms n) : s.Legible ms n where
  logged := h.durable.logged
  next := h.durable.next
  replays := by
    obtain ⟨memory, hall, hcontents⟩ := h.durable.replays
    exact ⟨memory, hall, congrArg Contents.operator hcontents⟩
  opened := h.durable.opened
  sound := h.durable.sound
  count := h.count
  weight := h.weight

namespace Legible

theorem mono (h : s.Legible ms n) (hle : n ≤ n') : s.Legible ms n' :=
  { h with count := Nat.le_trans h.count hle, weight := Nat.le_trans h.weight hle }

/-- What is buffered is read behind what is on disk. -/
theorem flush (h : s.Legible ms n) : s.flush.Legible ms n where
  logged := by
    obtain ⟨log, hlog, hlogged⟩ := h.logged
    exact ⟨log, by rw [← hlog]; exact List.append_nil _, hlogged⟩
  next := h.next
  replays := h.replays
  opened := h.opened
  sound := h.sound
  count := h.count
  weight := h.weight

theorem sync (h : s.Legible ms n) : s.sync.Legible ms n := by
  have hflush := h.flush
  exact ⟨hflush.logged, hflush.next, hflush.replays, hflush.opened, hflush.sound, hflush.count,
    hflush.weight⟩

/-- An unfinished checkpoint is not read. -/
theorem unfinished (h : s.Legible ms n) : s.unfinished.Legible ms n := by
  have hflush := h.flush
  exact ⟨hflush.logged, hflush.next, hflush.replays, hflush.opened, hflush.sound, hflush.count,
    hflush.weight⟩

/-- One change more, or none. -/
theorem logThenApply (h : s.Legible ms n) (m : Mutation) :
    ∃ ms', (LogStore.logThenApply m s).2.Legible ms' (n + 1) ∧
      (LogStore.logThenApply m s).2.config = s.config := by
  rcases logThenApply_run h.opened m with
    ⟨e, hrun, -⟩ | ⟨s', bs, hrun, hframe, hbytes, hnext, happly, hconfig⟩
  · rw [hrun]
    exact ⟨ms, h.mono (Nat.le_succ n), rfl⟩
  · rw [hrun]
    obtain ⟨heffect, hopened⟩ := Mutation.effect_of_apply h.opened happly
    obtain ⟨log, hlog, hlogged⟩ := h.logged
    obtain ⟨replayed, hall, hsame⟩ := h.replays
    have hweight := MemoryStore.weight_apply_le s.memory m
    have hsound := h.sound.apply m
    rw [happly] at hweight hsound
    rw [h.next] at hframe
    refine ⟨ms ++ [m], ⟨⟨log ++ bs, ?_, ?_⟩, ?_, ?_, hopened, hsound, ?_, ?_⟩, hconfig⟩
    · rw [hbytes, hlog, List.append_assoc]
    · rw [hconfig]
      exact hlogged.concat (by rwa [Nat.zero_add])
    · rw [hnext, h.next, List.length_append]
      rfl
    · -- what was replayed so far has the same partitions, so the change succeeds there as well
      obtain ⟨c, hreplayed, hoperator⟩ := Mutation.effect_of_operator heffect hsame
      obtain ⟨next, hnextApply, rfl, _⟩ :=
        Mutation.apply_of_effect (Mutation.closed_applyAll hall) hreplayed
      refine ⟨next, ?_, hoperator⟩
      rw [Mutation.applyAll_append hall]
      simp only [Mutation.applyAll, hnextApply]
    · rw [List.length_append]
      exact Nat.succ_le_succ h.count
    · exact Nat.le_trans hweight (Nat.succ_le_succ h.weight)

/-- A checkpoint that succeeds tells the contents, whatever was in the log before. -/
theorem checkpoint (h : s.Legible ms n) :
    ∃ ms', (LogStore.checkpoint s).2.Legible ms' n ∧ (LogStore.checkpoint s).2.config = s.config := by
  rcases checkpoint_outcome h.opened h.sound with
    ⟨e, hrun⟩ | ⟨s', hrun, hdurable, hmemory, hconfig⟩
  · rw [hrun]
    exact ⟨ms, h.unfinished, rfl⟩
  · rw [hrun]
    have himage := MemoryStore.length_image_le s.memory
    have hwithin : s'.Within s.memory.image n :=
      ⟨hdurable, Nat.le_trans himage h.weight, by rw [hmemory]; exact h.weight⟩
    exact ⟨_, hwithin.legible, hconfig⟩

/-- A commit in memory does not touch the log. -/
theorem committed (h : s.Legible ms n) {p : Partition} (hp : s.memory.partition name = .ok p)
    (ds : List Decision) : (s.committed name p ds).Legible ms n where
  logged := h.logged
  next := h.next
  replays := by
    obtain ⟨memory, hall, hsame⟩ := h.replays
    refine ⟨memory, hall, hsame.trans ?_⟩
    have hfound := (MemoryStore.partition_eq_ok_iff.1 hp).2
    funext name'
    by_cases hname : name' = name
    · simp [LogStore.committed, MemoryStore.contents, hname, hfound]
    · simp [LogStore.committed, MemoryStore.contents, hname]
  opened := h.opened
  sound := by
    have hcommit := h.sound.commit name ds
    rwa [MemoryStore.commit_run hp] at hcommit
  count := h.count
  weight := Nat.le_trans (weight_committed_le hp ds) h.weight

/-- A commit changes memory, and may then checkpoint. -/
theorem commit (h : s.Legible ms n) (name : String) (ds : List Decision) :
    ∃ ms', (LogStore.commit name ds s).2.Legible ms' n ∧
      (LogStore.commit name ds s).2.config = s.config := by
  cases hp : s.memory.partition name with
  | error e =>
    have hfirst : onMemory (MemoryStore.commit name ds) s
        = (.error (.access .accessingStore e), s) := by
      simp only [onMemory, MemoryStore.commit_run_of_error hp]
    rw [LogStore.commit, Call.bind_of_error hfirst]
    exact ⟨ms, h, rfl⟩
  | ok p =>
    have hcommitted := h.committed hp ds
    rw [commit_run hp]
    simp only
    split
    · obtain ⟨ms', hlegible, hconfig⟩ := hcommitted.checkpoint
      refine ⟨ms', ?_⟩
      -- whether the checkpoint succeeds or fails, the pass ends with the store it leaves
      rcases hrun : LogStore.checkpoint (s.committed name p ds) with ⟨e | _, s'⟩ <;>
      · rw [hrun] at hlegible hconfig
        exact ⟨hlegible, hconfig⟩
    · exact ⟨ms, hcommitted, rfl⟩

/-- A store that was shut opens again. -/
theorem reopen (h : s.Legible ms n) (hvalid : s.config.validate = .ok ())
    (hn : n < 0x10000000000000000) :
    ∃ s', (openVolume s.config (some s.shut)).1 = .ok s' ∧ s'.Legible ms n ∧
      s'.config = s.config := by
  obtain ⟨log, hlog, hlogged⟩ := h.logged
  obtain ⟨memory, hall, -⟩ := h.replays
  have hcount := h.count
  have hweight := MemoryStore.weight_applyAll_le hall
  have hempty : MemoryStore.empty.weight = 0 := rfl
  have hrecover := recover_eq hlogged (by omega) (Nat.le_refl _) hall
  refine ⟨onFile s.config (logHeader ++ log) memory ms.length s.scratch, ?_, ?_, rfl⟩
  · rw [written_shut, hlog, openVolume_of_recover hvalid rfl rfl hrecover, List.take_length]
  · exact ⟨⟨log, List.append_nil _, hlogged⟩, rfl, ⟨memory, hall, rfl⟩,
      Mutation.closed_applyAll hall, Mutation.sound_applyAll MemoryStore.Sound.empty hall,
      hcount, by show memory.weight ≤ n; omega⟩

end Legible

/-- The log of a store can be read, whatever happened to the store. -/
theorem Attainable.legible (hvalid : config.validate = .ok ()) (h : Attainable config n s)
    (hn : n < 0x10000000000000000) : ∃ ms, s.Legible ms n ∧ s.config = config := by
  induction h with
  | opened hopen =>
    obtain ⟨s₀, hopen₀, hdurable, hconfig, hmemory⟩ := openVolume_empty hvalid
    obtain rfl := Except.ok.inj (hopen₀.symm.trans hopen)
    have hwithin : s₀.Within [] 0 := ⟨hdurable, Nat.le_refl 0, by rw [hmemory]; decide⟩
    exact ⟨[], hwithin.legible, hconfig⟩
  | @change n s h m ih =>
    obtain ⟨ms, hlegible, hconfig⟩ := ih (by omega)
    obtain ⟨ms', hlegible', hconfig'⟩ := hlegible.logThenApply m
    exact ⟨ms', hlegible', hconfig'.trans hconfig⟩
  | @sync n s h ih =>
    obtain ⟨ms, hlegible, hconfig⟩ := ih (by omega)
    exact ⟨ms, hlegible.sync.mono (Nat.le_succ n), hconfig⟩
  | @checkpoint n s h ih =>
    obtain ⟨ms, hlegible, hconfig⟩ := ih (by omega)
    obtain ⟨ms', hlegible', hconfig'⟩ := hlegible.checkpoint
    exact ⟨ms', hlegible'.mono (Nat.le_succ n), hconfig'.trans hconfig⟩
  | @commit n s h name ds ih =>
    obtain ⟨ms, hlegible, hconfig⟩ := ih (by omega)
    obtain ⟨ms', hlegible', hconfig'⟩ := hlegible.commit name ds
    exact ⟨ms', hlegible'.mono (Nat.le_succ n), hconfig'.trans hconfig⟩
  | @restart n s s' h hopen ih =>
    obtain ⟨ms, hlegible, hconfig⟩ := ih (by omega)
    obtain ⟨s₁, hopen₁, hlegible', hconfig'⟩ := hlegible.reopen (by rw [hconfig, hvalid]) (by omega)
    rw [hconfig] at hopen₁
    obtain rfl := Except.ok.inj (hopen₁.symm.trans hopen)
    exact ⟨ms, hlegible'.mono (Nat.le_succ n), hconfig'.trans hconfig⟩

end LogStore

end AppendLists
