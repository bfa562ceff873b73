import AppendLists.Proofs.Log.Checkpoint
import AppendLists.Proofs.Memory.Pass

namespace AppendLists

/-!
# What the log of a store is worth

At any time the log of an open store, the bytes not flushed yet included, consists of numbered
changes that replay to what the store holds. Every call keeps this up, whether it succeeds or not.

* `LogStore.Durable`: the invariant, with the changes of the log;
* `LogStore.openVolume_empty`: a new store;
* `logThenApply_run`: all that a change can do;
* `logThenApply_outcome`, `Durable.sync`, `checkpoint_outcome`, `commit_outcome`: the calls;
* `Durable.reopen`: a shut store opens again, with the same contents;
* `LogStore.Within`: the invariant with a bound for the number of changes, which every call raises
  by one at most, a checkpoint included.
-/

namespace LogStore

/-- The log of a store, with its header, consists of the changes `ms`, numbered from one on, and
they replay to the contents of the store. -/
structure Durable (s : LogStore) (ms : List Mutation) : Prop where
  /-- The log, as far as it is on disk and beyond. -/
  logged : ∃ log, s.written ++ s.buffered = logHeader ++ log ∧
    Logged s.config.maxEntrySize 0 ms log
  /-- The number of the next change. -/
  next : s.nextSeq = ms.length + 1
  /-- What the log replays to. -/
  replays : ∃ memory, Mutation.applyAll ms MemoryStore.empty = .ok memory ∧
    memory.contents = s.memory.contents
  /-- The store is open. -/
  opened : s.memory.closed = false
  /-- Its contents satisfy the invariant of memory stores. -/
  sound : s.memory.Sound

variable {s s' : LogStore} {ms : List Mutation} {config : StoreConfig}

/-! ### New stores -/

/-- A new log opens without changes. -/
theorem openVolume_empty (hvalid : config.validate = .ok ()) :
    ∃ s, (openVolume config (some .empty)).1 = .ok s ∧ s.Durable [] ∧ s.config = config ∧
      s.memory = MemoryStore.empty := by
  refine ⟨onFile config logHeader MemoryStore.empty 0 false, ?_, ?_, rfl, rfl⟩
  · rw [openVolume, hvalid]
    rfl
  · exact ⟨⟨[], rfl, .nil 0⟩, rfl, ⟨_, rfl, rfl⟩, rfl, MemoryStore.Sound.empty⟩

/-! ### Writing -/

/-- Flushing moves what is buffered to the disk and changes nothing else. -/
theorem Durable.flush (h : s.Durable ms) : s.flush.Durable ms where
  logged := by
    obtain ⟨log, hlog, hlogged⟩ := h.logged
    exact ⟨log, by rw [← hlog]; exact List.append_nil _, hlogged⟩
  next := h.next
  replays := h.replays
  opened := h.opened
  sound := h.sound

/-- So does synchronizing. -/
theorem Durable.sync (h : s.Durable ms) : s.sync.Durable ms :=
  have hflush := h.flush
  ⟨hflush.logged, hflush.next, hflush.replays, hflush.opened, hflush.sound⟩

/-- A change is appended to the log as it is framed, and changes nothing else of interest. -/
theorem append_eq_ok {m : Mutation} (h : s.append m = .ok s') :
    ∃ bs, LogEntry.frame s.config.maxEntrySize ⟨s.nextSeq, m⟩ = .ok bs ∧
      s'.written ++ s'.buffered = s.written ++ s.buffered ++ bs ∧ s'.nextSeq = s.nextSeq + 1 ∧
      s'.memory = s.memory ∧ s'.config = s.config := by
  unfold append at h
  split at h
  · cases h
  · case h_2 bs hframe =>
    obtain rfl := Except.ok.inj h
    refine ⟨bs, hframe, ?_⟩
    -- a synchronization moves the buffer to the disk; together they stay the same
    split
    · exact ⟨by simp [LogStore.sync, LogStore.flush], rfl, rfl, rfl⟩
    · exact ⟨by simp, rfl, rfl, rfl⟩

/-- A change is not appended only if its entry is refused. -/
theorem append_eq_error {m : Mutation} {e : StorageError} (h : s.append m = .error e) :
    LogEntry.frame s.config.maxEntrySize ⟨s.nextSeq, m⟩ = .error e := by
  unfold append at h
  split at h
  · case h_1 e' hframe =>
    obtain rfl := Except.error.inj h
    exact hframe
  · cases h

/-- A change is refused if and only if it would have no effect on the contents. -/
theorem refusal_eq_effect (memory : MemoryStore) (m : Mutation) :
    refusal memory m = (m.effect memory.contents).map fun _ => () := by
  cases m with
  | create name op =>
    rw [refusal, MemoryStore.has_eq, Mutation.effect]
    cases memory.contents.operator name <;> rfl
  | put name key value =>
    rw [refusal, MemoryStore.has_eq, Mutation.effect]
    cases memory.contents.operator name <;> rfl
  | merge name key operand =>
    rw [refusal, MemoryStore.has_eq, MemoryStore.operator?_eq, Mutation.effect]
    cases memory.contents.operator name with
    | none => rfl
    | some op => cases op <;> rfl
  | delete name key =>
    rw [refusal, MemoryStore.has_eq, Mutation.effect]
    cases memory.contents.operator name <;> rfl

/-- All that a change can do to an open store: it has no effect or its entry is refused, and it fails
without a trace; or it is framed behind the log and applied. -/
theorem logThenApply_run (hopened : s.memory.closed = false) (m : Mutation) :
    (∃ e, logThenApply m s = (.error e, s) ∧ (m.effect s.memory.contents = .error e ∨
        LogEntry.frame s.config.maxEntrySize ⟨s.nextSeq, m⟩ = .error e)) ∨
      ∃ s' bs, logThenApply m s = (.ok (), s') ∧
        LogEntry.frame s.config.maxEntrySize ⟨s.nextSeq, m⟩ = .ok bs ∧
        s'.written ++ s'.buffered = s.written ++ s.buffered ++ bs ∧ s'.nextSeq = s.nextSeq + 1 ∧
        m.apply s.memory = (.ok (), s'.memory) ∧ s'.config = s.config := by
  unfold logThenApply
  rw [if_neg (by simp [hopened]), refusal_eq_effect]
  -- what is logged has passed the check, so applying it cannot fail
  cases heffect : m.effect s.memory.contents with
  | error e => exact .inl ⟨e, rfl, .inl rfl⟩
  | ok c =>
    cases happend : s.append m with
    | error e => exact .inl ⟨e, rfl, .inr (append_eq_error happend)⟩
    | ok s₁ =>
      obtain ⟨bs, hframe, hbytes, hnext, hmemory, hconfig⟩ := append_eq_ok happend
      obtain ⟨memory', happly, -⟩ := Mutation.apply_of_effect hopened heffect
      have hrun : onMemory m.apply s₁ = (.ok (), { s₁ with memory := memory' }) := by
        simp only [onMemory, hmemory, happly]
      exact .inr ⟨{ s₁ with memory := memory' }, bs, hrun, hframe, hbytes, hnext, happly, hconfig⟩

/-- A change either fails without a trace, or is logged behind the others and applied. -/
theorem logThenApply_outcome (h : s.Durable ms) (m : Mutation) :
    (∃ e, logThenApply m s = (.error e, s)) ∨
      ∃ s', logThenApply m s = (.ok (), s') ∧ s'.Durable (ms ++ [m]) ∧
        m.apply s.memory = (.ok (), s'.memory) ∧ s'.config = s.config := by
  rcases logThenApply_run h.opened m with
    ⟨e, hrun, -⟩ | ⟨s', bs, hrun, hframe, hbytes, hnext, happly, hconfig⟩
  · exact .inl ⟨e, hrun⟩
  · obtain ⟨heffect, hopened⟩ := Mutation.effect_of_apply h.opened happly
    obtain ⟨log, hlog, hlogged⟩ := h.logged
    obtain ⟨replayed, hall, hsame⟩ := h.replays
    rw [h.next] at hframe
    refine .inr ⟨s', hrun, ⟨⟨log ++ bs, ?_, ?_⟩, ?_, ?_, hopened, ?_⟩, happly, hconfig⟩
    · rw [hbytes, hlog, List.append_assoc]
    · rw [hconfig]
      exact hlogged.concat (by rwa [Nat.zero_add])
    · rw [hnext, h.next, List.length_append]
      rfl
    · -- the change has the same effect on what was replayed so far
      rw [← hsame] at heffect
      obtain ⟨next, hnextApply, hnextContents, _⟩ :=
        Mutation.apply_of_effect (Mutation.closed_applyAll hall) heffect
      refine ⟨next, ?_, hnextContents⟩
      rw [Mutation.applyAll_append hall]
      simp only [Mutation.applyAll, hnextApply]
    · have hsound := h.sound.apply m
      rwa [happly] at hsound

/-! ### Checkpoints -/

/-- The store after a checkpoint that failed: everything logged is on disk, and the unfinished log
beside it. -/
def unfinished (s : LogStore) : LogStore := { s.flush with scratch := true }

/-- An unfinished checkpoint lies beside the log and is not part of it. -/
theorem Durable.unfinished (h : s.Durable ms) : s.unfinished.Durable ms :=
  have hflush := h.flush
  ⟨hflush.logged, hflush.next, hflush.replays, hflush.opened, hflush.sound⟩

/-- A checkpoint that fails changes nothing but the files; one that succeeds leaves a log of the
changes that build the store, whatever was in the log before. -/
theorem checkpoint_outcome (hopened : s.memory.closed = false) (hsound : s.memory.Sound) :
    (∃ e, checkpoint s = (.error e, s.unfinished)) ∨
      ∃ s', checkpoint s = (.ok (), s') ∧ s'.Durable s.memory.image ∧ s'.memory = s.memory ∧
        s'.config = s.config := by
  unfold checkpoint
  simp only
  cases hframe : framePartitions s.flush.config.maxEntrySize s.flush.memory
      s.flush.memory.partitionNames 0 with
  | error e => exact .inl ⟨e, rfl⟩
  | ok result =>
    -- the entries that are framed are the changes that build the contents
    obtain ⟨bs, last⟩ := result
    have hfound : ∀ name ∈ s.memory.partitionNames, (s.memory.partitions.find? name).isSome :=
      fun name hmem => Table.mem_keys_iff.1 hmem
    obtain ⟨hlogged, hlast⟩ := logged_framePartitions hopened hfound hframe
    obtain ⟨memory, hall, hcontents, _⟩ :=
      Mutation.applyAll_of_effectAll (s := MemoryStore.empty) rfl s.memory.effectAll_image
    refine .inr ⟨_, rfl, ⟨⟨bs, ?_, hlogged⟩, ?_, ⟨memory, hall, hcontents⟩, hopened, hsound⟩,
      rfl, rfl⟩
    · exact List.append_nil _
    · show last + 1 = _
      rw [hlast, Nat.zero_add]
      rfl

/-! ### Passes -/

variable {name : String} {p : Partition}

/-- A pass captures what is in memory. -/
theorem capture_run (hp : s.memory.partition name = .ok p) :
    Store.capture name s = (.ok p.captured, s) := by
  show onMemory (MemoryStore.capture name) s = _
  simp only [onMemory, MemoryStore.capture_run hp]

theorem capture_run_of_error {e : StorageError} (hp : s.memory.partition name = .error e) :
    Store.capture name s = (.error (.access .accessingStore e), s) := by
  show onMemory (MemoryStore.capture name) s = _
  simp only [onMemory, MemoryStore.capture_run_of_error hp]

/-- The store after the memory step of a commit. -/
def committed (s : LogStore) (name : String) (p : Partition) (ds : List Decision) : LogStore :=
  { s with
    memory := s.memory.setPartition name
      (MemoryStore.commitDecisions ds p (.visited ds.length)).1 }

/-- Decisions are committed in memory first. -/
theorem commit_memory_run (hp : s.memory.partition name = .ok p) (ds : List Decision) :
    onMemory (MemoryStore.commit name ds) s
      = (.ok (MemoryStore.commitDecisions ds p (.visited ds.length)).2, s.committed name p ds) := by
  simp only [onMemory, MemoryStore.commit_run hp]
  rfl

/-- A commit makes neither keys nor partitions. -/
theorem weight_committed_le (hp : s.memory.partition name = .ok p) (ds : List Decision) :
    (s.committed name p ds).memory.weight ≤ s.memory.weight := by
  have hset := MemoryStore.weight_setPartition (MemoryStore.partition_eq_ok_iff.1 hp).2
    (MemoryStore.commitDecisions ds p (.visited ds.length)).1
  have hless := MemoryStore.weight_commitDecisions_le ds p (.visited ds.length)
  show (s.memory.setPartition name _).weight ≤ _
  omega

/-- A commit changes memory, and checkpoints if it counted anything. -/
theorem commit_run (hp : s.memory.partition name = .ok p) (ds : List Decision) :
    commit name ds s =
      let stats := (MemoryStore.commitDecisions ds p (.visited ds.length)).2
      if stats.changes > 0 then
        match checkpoint (s.committed name p ds) with
        | (.ok (), s') => (.ok stats, s')
        | (.error e, s') => (.error (.access .accessingStore e), s')
      else (.ok stats, s.committed name p ds) := by
  rw [commit, Call.bind_of_ok (commit_memory_run hp ds)]
  simp only
  generalize (MemoryStore.commitDecisions ds p (.visited ds.length)).2 = stats
  split
  · case isTrue hmore =>
    rw [if_pos (show stats.changes > 0 from hmore)]
    rcases hrun : checkpoint (s.committed name p ds) with ⟨e | _, s'⟩
    · rw [Call.bind_of_error (Call.attempting_of_error .accessingStore hrun)]
    · rw [Call.bind_of_ok (Call.attempting_of_ok .accessingStore hrun)]
      rfl
  · case isFalse hmore =>
    rw [if_neg (show ¬ stats.changes > 0 from hmore)]
    rfl

/-- A commit of a pass that nothing came in between either changes no value and keeps the log, or
checkpoints, which may fail. -/
theorem commit_outcome (h : s.Durable ms) (hp : s.memory.partition name = .ok p)
    {ds : List Decision} (hds : ds.map (·.captured) = p.captured) :
    (∃ stats, commit name ds s = (.ok stats, s.committed name p ds) ∧
        (s.committed name p ds).Durable ms ∧ ∀ d ∈ ds, d.outcome = d.captured.value) ∨
      (∃ stats s', commit name ds s = (.ok stats, s') ∧ s'.Durable s'.memory.image ∧
        s'.memory = (s.committed name p ds).memory ∧ s'.config = s.config) ∨
      ∃ e, commit name ds s = (.error e, (s.committed name p ds).unfinished) := by
  have hsound : (s.committed name p ds).memory.Sound := by
    have hcommit := h.sound.commit name ds
    rwa [MemoryStore.commit_run hp] at hcommit
  have hunchanged := Partition.unchanged_iff (h.sound.of_partition hp) hds ds.length
  rw [commit_run hp]
  simp only
  generalize (MemoryStore.commitDecisions ds p (.visited ds.length)).2 = stats at hunchanged ⊢
  by_cases hmore : stats.changes > 0
  · rw [if_pos hmore]
    rcases checkpoint_outcome (s := s.committed name p ds) h.opened hsound with
      ⟨e, hrun⟩ | ⟨s', hrun, hdurable, hmemory, hconfig⟩
    · rw [hrun]
      exact .inr (.inr ⟨.access .accessingStore e, rfl⟩)
    · rw [hrun]
      exact .inr (.inl ⟨stats, s', rfl, by rwa [hmemory], hmemory, hconfig⟩)
  · -- no counter rose, so no value changed and the old log still tells the contents
    rw [if_neg hmore]
    rw [CompactionStats.changes] at hmore
    have hsame := hunchanged.1 ⟨by omega, by omega⟩
    refine .inl ⟨stats, rfl, ⟨h.logged, h.next, ?_, h.opened, hsound⟩, hsame⟩
    obtain ⟨memory, hall, hcontents⟩ := h.replays
    refine ⟨memory, hall, hcontents.trans ?_⟩
    have hvalues := (Partition.value?_commitDecisions_eq_iff (h.sound.of_partition hp) hds
      (.visited ds.length)).2 hsame
    exact ((MemoryStore.contents_setPartition_eq_iff (MemoryStore.partition_eq_ok_iff.1 hp).2
      (MemoryStore.operator_commitDecisions ..)).2 hvalues).symm

/-! ### Shutting and opening again -/

/-- What was logged is on disk when the store is shut. -/
theorem written_shut (s : LogStore) :
    s.shut = ⟨some (s.written ++ s.buffered), true, s.scratch, false⟩ := rfl

/-- A file that is recovered is opened, and cut to the length that was recovered. -/
theorem openVolume_of_recover (hvalid : config.validate = .ok ()) {v : Volume} {file : Bytes}
    {r : Recovered} (hlog : v.log = some file) (hheld : v.held = false)
    (h : recover config.maxEntrySize file = .ok r) :
    openVolume config (some v)
      = (.ok (onFile config (file.take r.validLength) r.memory r.maxSeq v.scratch),
          some (onFile config (file.take r.validLength) r.memory r.maxSeq v.scratch).volume) := by
  simp only [openVolume, hvalid, openExisting, hheld, Bool.false_eq_true, if_false, hlog, h]

/-- A file that cannot be recovered is left as it is. -/
theorem openVolume_of_recover_error (hvalid : config.validate = .ok ()) {v : Volume} {file : Bytes}
    {e : StorageError} (hlog : v.log = some file) (hheld : v.held = false)
    (h : recover config.maxEntrySize file = .error e) :
    openVolume config (some v) = (.error e, some { v with lockFile := true }) := by
  simp only [openVolume, hvalid, openExisting, hheld, Bool.false_eq_true, if_false, hlog, h]

/-- A store that was shut opens again: its log replays, and the sequence goes on. -/
theorem Durable.reopen (h : s.Durable ms) (hvalid : s.config.validate = .ok ())
    (hseq : ms.length < 0x10000000000000000) :
    ∃ s', (openVolume s.config (some s.shut)).1 = .ok s' ∧ s'.Durable ms ∧ s'.config = s.config ∧
      Mutation.applyAll ms MemoryStore.empty = .ok s'.memory ∧
      s'.memory.contents = s.memory.contents := by
  obtain ⟨log, hlog, hlogged⟩ := h.logged
  obtain ⟨memory, hall, hcontents⟩ := h.replays
  have hrecover := recover_eq hlogged hseq (Nat.le_refl _) hall
  refine ⟨onFile s.config (logHeader ++ log) memory ms.length s.scratch, ?_, ?_, rfl, hall,
    hcontents⟩
  · -- the log is recovered to its full length, so nothing is cut off
    rw [written_shut, hlog, openVolume_of_recover hvalid rfl rfl hrecover, List.take_length]
  · refine ⟨⟨log, List.append_nil _, hlogged⟩, rfl, ⟨memory, hall, rfl⟩, ?_, ?_⟩
    · exact Mutation.closed_applyAll hall
    · exact Mutation.sound_applyAll MemoryStore.Sound.empty hall

/-! ### The number of changes -/

/-- The log has at most `n` changes, and so would the log that a checkpoint writes. -/
structure Within (s : LogStore) (ms : List Mutation) (n : Nat) : Prop where
  /-- The log replays to the contents. -/
  durable : s.Durable ms
  /-- The changes of the log. -/
  count : ms.length ≤ n
  /-- The changes of a checkpoint. -/
  weight : s.memory.weight ≤ n

namespace Within

variable {n n' : Nat}

/-- A bound that holds stays one when it grows. -/
theorem mono (h : s.Within ms n) (hle : n ≤ n') : s.Within ms n' :=
  ⟨h.durable, Nat.le_trans h.count hle, Nat.le_trans h.weight hle⟩

/-- Synchronizing changes neither the number of changes nor the contents. -/
theorem sync (h : s.Within ms n) : s.sync.Within ms n := ⟨h.durable.sync, h.count, h.weight⟩

theorem unfinished (h : s.Within ms n) : s.unfinished.Within ms n :=
  ⟨h.durable.unfinished, h.count, h.weight⟩

/-- One change more. -/
theorem logThenApply (h : s.Within ms n) (m : Mutation) :
    (∃ e, LogStore.logThenApply m s = (.error e, s)) ∨
      ∃ s', LogStore.logThenApply m s = (.ok (), s') ∧ s'.Within (ms ++ [m]) (n + 1) ∧
        m.apply s.memory = (.ok (), s'.memory) ∧ s'.config = s.config := by
  rcases logThenApply_outcome h.durable m with herror | ⟨s', hrun, hdurable, happly, hconfig⟩
  · exact .inl herror
  · have hcount : (ms ++ [m]).length ≤ n + 1 := by
      rw [List.length_append]
      exact Nat.succ_le_succ h.count
    have hweight := MemoryStore.weight_apply_le s.memory m
    rw [happly] at hweight
    exact .inr ⟨s', hrun, ⟨hdurable, hcount, Nat.le_trans hweight (Nat.succ_le_succ h.weight)⟩,
      happly, hconfig⟩

/-- A checkpoint has no more changes than there are partitions and entries. -/
theorem checkpoint (h : s.Within ms n) :
    (∃ e, LogStore.checkpoint s = (.error e, s.unfinished)) ∨
      ∃ s', LogStore.checkpoint s = (.ok (), s') ∧ s'.Within s.memory.image n ∧
        s'.memory = s.memory ∧ s'.config = s.config := by
  rcases checkpoint_outcome h.durable.opened h.durable.sound with
    herror | ⟨s', hrun, hdurable, hmemory, hconfig⟩
  · exact .inl herror
  · have himage := MemoryStore.length_image_le s.memory
    exact .inr ⟨s', hrun, ⟨hdurable, Nat.le_trans himage h.weight, by rw [hmemory]; exact h.weight⟩,
      hmemory, hconfig⟩

/-- A commit makes no store heavier. -/
theorem commit (h : s.Within ms n) (hp : s.memory.partition name = .ok p) {ds : List Decision}
    (hds : ds.map (·.captured) = p.captured) :
    (∃ stats, LogStore.commit name ds s = (.ok stats, s.committed name p ds) ∧
        (s.committed name p ds).Within ms n) ∨
      (∃ stats s', LogStore.commit name ds s = (.ok stats, s') ∧ s'.Within s'.memory.image n ∧
        s'.memory = (s.committed name p ds).memory ∧ s'.config = s.config) ∨
      ∃ e, LogStore.commit name ds s = (.error e, (s.committed name p ds).unfinished) := by
  have hweight := Nat.le_trans (weight_committed_le hp ds) h.weight
  rcases commit_outcome h.durable hp hds with
    ⟨stats, hok, hdurable, _⟩ | ⟨stats, s', hok, hdurable, hmemory, hconfig⟩ | herror
  · exact .inl ⟨stats, hok, hdurable, h.count, hweight⟩
  · rw [← hmemory] at hweight
    have himage := MemoryStore.length_image_le s'.memory
    exact .inr (.inl ⟨stats, s', hok, ⟨hdurable, Nat.le_trans himage hweight, hweight⟩, hmemory,
      hconfig⟩)
  · exact .inr (.inr herror)

/-- What was replayed has no more entries than there were changes. -/
theorem reopen (h : s.Within ms n) (hvalid : s.config.validate = .ok ())
    (hn : n < 0x10000000000000000) :
    ∃ s', (openVolume s.config (some s.shut)).1 = .ok s' ∧ s'.Within ms n ∧ s'.config = s.config ∧
      Mutation.applyAll ms MemoryStore.empty = .ok s'.memory ∧
      s'.memory.contents = s.memory.contents := by
  have hcount := h.count
  obtain ⟨s', hopen, hdurable, hconfig, hall, hcontents⟩ := h.durable.reopen hvalid (by omega)
  have hweight := MemoryStore.weight_applyAll_le hall
  have hempty : MemoryStore.empty.weight = 0 := rfl
  exact ⟨s', hopen, ⟨hdurable, hcount, by omega⟩, hconfig, hall, hcontents⟩

end Within

end LogStore

end AppendLists
