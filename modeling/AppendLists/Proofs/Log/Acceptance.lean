import AppendLists.Proofs.Log.DamagedRecord

namespace AppendLists

/-!
# What the log accepts

A change is checked before it is logged, and applied afterwards. The check is not that of the memory
store, which looks at its partitions once more when the change is applied; were it any more lenient,
the log would hold a change that no replay can make, and the store could not be opened again. It is not:
both refuse the same changes for the same causes, in every state.

* `Mutation.Refused`: the causes for which a memory store refuses a change;
* `Mutation.apply_fst`, `Mutation.apply_eq_error_iff`: the check of the log store and that of the memory
  store;
* `LogStore.Verdict`, `logThenApply_verdict`: all that a change of a log store can come to, told by
  `logThenApply_eq_error_iff` and `logThenApply_eq_ok`;
* `LogStore.InUse`, `InUse.legible`: the stores that can be got into, closed ones included;
* `InUse.fileEntries_of_ok`, `InUse.reopens`: what is in their logs, and that these can be replayed;
* `LogStore.change_accepted_or_traceless`: what a change leaves in the log and in memory.
-/

/-! ### Causes of refusal -/

namespace Mutation

/-- The partition that a change is made in; to create one, none is needed. -/
def home : Mutation → Option String
  | .create _ _ => none
  | .put name _ _ | .merge name _ _ | .delete name _ => some name

/-- The causes for which a memory store refuses a change. -/
inductive Refused (s : MemoryStore) : Mutation → StorageError → Prop where
  /-- The store is closed. -/
  | closed (m : Mutation) (hc : s.closed = true) : Refused s m .closed
  /-- There is such a partition already. -/
  | taken {name : String} (op : Option MergeOperator) (hc : s.closed = false)
      (hhas : s.has name = true) : Refused s (.create name op) (.partitionExists name)
  /-- There is no such partition. -/
  | missing {m : Mutation} {name : String} (hc : s.closed = false) (hhome : m.home = some name)
      (hhas : s.has name = false) : Refused s m (.partitionNotFound name)
  /-- The partition has no way of merging. -/
  | unmerged {name : String} (key operand : Bytes) (hc : s.closed = false)
      (hhas : s.has name = true) (hop : s.operator? name = none) :
      Refused s (.merge name key operand) (.mergeNotSupported name)

variable {s : MemoryStore} {m : Mutation} {e : StorageError}

/-- The check in front of the log finds the causes of an open store. -/
theorem refusal_eq_error_iff (hc : s.closed = false) :
    LogStore.refusal s m = .error e ↔ m.Refused s e := by
  constructor
  · -- the check looks at the partition first, and at the way of merging last
    intro h
    cases m with
    | create name op =>
      rw [LogStore.refusal] at h
      split at h
      · case isTrue hhas =>
        obtain rfl := Except.error.inj h
        exact .taken op hc hhas
      · cases h
    | put name key value | delete name key =>
      rw [LogStore.refusal] at h
      split at h
      · cases h
      · case isFalse hhas =>
        obtain rfl := Except.error.inj h
        exact .missing hc rfl (Bool.eq_false_iff.2 hhas)
    | merge name key operand =>
      rw [LogStore.refusal] at h
      split at h
      · case isTrue hhas =>
        split at h
        · cases h
        · case isFalse hop =>
          obtain rfl := Except.error.inj h
          exact .unmerged key operand hc hhas (by simpa using hop)
      · case isFalse hhas =>
        obtain rfl := Except.error.inj h
        exact .missing hc rfl (Bool.eq_false_iff.2 hhas)
  · -- an open store has no other cause
    rintro (⟨m, hclosed⟩ | ⟨op, -, hhas⟩ | ⟨-, hhome, hhas⟩ | ⟨key, operand, -, hhas, hop⟩)
    · rw [hclosed] at hc
      cases hc
    · rw [LogStore.refusal, if_pos hhas]
    · cases m with
      | create name op => cases hhome
      | put name key value | merge name key operand | delete name key =>
        obtain rfl := Option.some.inj hhome
        rw [LogStore.refusal, if_neg (by rw [hhas]; exact Bool.false_ne_true)]
    · rw [LogStore.refusal, if_pos hhas, hop]
      rfl

/-- A memory store answers a change as the check in front of the log does. -/
theorem apply_fst (m : Mutation) (s : MemoryStore) :
    (m.apply s).1 = if s.closed then .error .closed else LogStore.refusal s m := by
  cases hc : s.closed with
  | true =>
    rw [if_pos rfl]
    cases m <;>
      simp [apply, MemoryStore.create, MemoryStore.put, MemoryStore.merge, MemoryStore.delete,
        MemoryStore.versioned, MemoryStore.modify, MemoryStore.partition, Except.bind, hc]
  | false =>
    rw [if_neg Bool.false_ne_true, LogStore.refusal_eq_effect]
    rcases m.apply_effect hc with ⟨s', hrun, heffect, -⟩ | ⟨e, s', hrun, heffect, -⟩
    · rw [hrun, heffect]
      rfl
    · rw [hrun, heffect]
      rfl

/-- A memory store refuses a change if there is a cause, with this cause. -/
theorem apply_eq_error_iff : (m.apply s).1 = .error e ↔ m.Refused s e := by
  rw [apply_fst]
  cases hc : s.closed with
  | true =>
    rw [if_pos rfl]
    constructor
    · intro h
      obtain rfl := Except.error.inj h
      exact .closed m hc
    · -- every other cause is one of an open store
      rintro (_ | ⟨_, h, _⟩ | ⟨h, _, _⟩ | ⟨_, _, h, _, _⟩)
      · rfl
      all_goals
        rw [hc] at h
        cases h
  | false =>
    rw [if_neg Bool.false_ne_true]
    exact refusal_eq_error_iff hc

end Mutation

/-! ### Changes of a log store -/

/-- An entry is refused if its record exceeds the limit, or the four bytes of its length. -/
theorem LogEntry.frame_eq_error_iff {limit : Nat} {entry : LogEntry} {e : StorageError} :
    LogEntry.frame limit entry = .error e ↔
      (limit < (LogEntry.format.write entry).length ∨
          0x100000000 ≤ (LogEntry.format.write entry).length) ∧
        e = .entryRefused (LogEntry.format.write entry).length limit := by
  unfold LogEntry.frame
  simp only
  split
  · case isTrue h =>
    obtain ⟨hlimit, hlength⟩ := h
    simp only [reduceCtorEq, false_iff]
    rintro ⟨hlong, -⟩
    omega
  · case isFalse h =>
    rw [Except.error.injEq, eq_comm (a := StorageError.entryRefused ..)]
    refine ⟨fun he => ⟨?_, he⟩, And.right⟩
    omega

/-- A change more has the next number. -/
theorem numbered_concat (seq : Nat) (ms : List Mutation) (m : Mutation) :
    numbered seq (ms ++ [m]) = numbered seq ms ++ [⟨seq + ms.length + 1, m⟩] := by
  induction ms generalizing seq with
  | nil => rfl
  | cons m' ms ih =>
    rw [List.cons_append, numbered, ih, numbered, List.length_cons, Nat.add_right_comm seq 1]
    rfl

namespace LogStore

variable {config : StoreConfig} {s s' : LogStore} {m : Mutation} {e : StorageError} {n : Nat}

/-- The entry of a change is too long to be logged by a store. -/
def TooLong (s : LogStore) (m : Mutation) : Prop :=
  s.config.maxEntrySize < (LogEntry.format.write ⟨s.nextSeq, m⟩).length ∨
    0x100000000 ≤ (LogEntry.format.write ⟨s.nextSeq, m⟩).length

/-- All that a change of a log store can come to. -/
inductive Verdict (s : LogStore) (m : Mutation) : Except StorageError Unit × LogStore → Prop where
  /-- The memory store has a cause to refuse it, and nothing is changed. -/
  | refused {e : StorageError} (hcause : m.Refused s.memory e) : Verdict s m (.error e, s)
  /-- The entry is too long, and nothing is changed. -/
  | tooLong (haccept : ∀ e, ¬ m.Refused s.memory e) (hlong : s.TooLong m) :
      Verdict s m (.error (.entryRefused (LogEntry.format.write ⟨s.nextSeq, m⟩).length
        s.config.maxEntrySize), s)
  /-- One entry more is in the log, and the change is made to memory. -/
  | logged {s' : LogStore} {bs : Bytes}
      (hframe : LogEntry.frame s.config.maxEntrySize ⟨s.nextSeq, m⟩ = .ok bs)
      (hfile : s'.file = s.file ++ bs) (hnext : s'.nextSeq = s.nextSeq + 1)
      (happly : m.apply s.memory = (.ok (), s'.memory)) (hconfig : s'.config = s.config) :
      Verdict s m (.ok (), s')

theorem logThenApply_verdict (m : Mutation) (s : LogStore) : s.Verdict m (logThenApply m s) := by
  cases hc : s.memory.closed with
  | true =>
    rw [logThenApply, if_pos hc]
    exact .refused (.closed m hc)
  | false =>
    cases hcheck : refusal s.memory m with
    | error e =>
      have hrun : logThenApply m s = (.error e, s) := by simp [logThenApply, hc, hcheck]
      rw [hrun]
      exact .refused ((Mutation.refusal_eq_error_iff hc).1 hcheck)
    | ok _ =>
      -- what passes the check has no cause to be refused, so only its length can keep it out
      have haccept : ∀ e, ¬ m.Refused s.memory e := by
        intro e hcause
        rw [(Mutation.refusal_eq_error_iff hc).2 hcause] at hcheck
        cases hcheck
      rcases logThenApply_run hc m with
        ⟨e, hrun, heffect | hframe⟩ | ⟨s', bs, hrun, hframe, hfile, hnext, happly, hconfig⟩
      · rw [refusal_eq_effect, heffect] at hcheck
        cases hcheck
      · obtain ⟨hlong, rfl⟩ := LogEntry.frame_eq_error_iff.1 hframe
        rw [hrun]
        exact .tooLong haccept hlong
      · rw [hrun]
        exact .logged hframe hfile hnext happly hconfig

/-- A change fails if the memory store has a cause to refuse it, and otherwise if its entry is too
long; then nothing is changed. -/
theorem logThenApply_eq_error_iff :
    logThenApply m s = (.error e, s') ↔
      s' = s ∧ (m.Refused s.memory e ∨
        (∀ e', ¬ m.Refused s.memory e') ∧ s.TooLong m ∧
          e = .entryRefused (LogEntry.format.write ⟨s.nextSeq, m⟩).length s.config.maxEntrySize) := by
  have hverdict := logThenApply_verdict m s
  -- the verdict tells the cause
  constructor
  · intro hrun
    rw [hrun] at hverdict
    cases hverdict with
    | refused hcause => exact ⟨rfl, .inl hcause⟩
    | tooLong haccept hlong => exact ⟨rfl, .inr ⟨haccept, hlong, rfl⟩⟩
  · -- and there is no other error for it
    rintro ⟨rfl, hcause⟩
    generalize logThenApply m s' = r at hverdict ⊢
    cases hverdict with
    | @refused e' hcause' =>
      rcases hcause with hcause | ⟨haccept, -⟩
      · -- one store refuses one change for one cause
        have hsame := Mutation.apply_eq_error_iff.2 hcause'
        rw [Mutation.apply_eq_error_iff.2 hcause] at hsame
        rw [Except.error.inj hsame]
      · exact absurd hcause' (haccept e')
    | tooLong haccept hlong =>
      rcases hcause with hcause | ⟨-, -, rfl⟩
      · exact absurd hcause (haccept e)
      · rfl
    | logged hframe hfile hnext happly hconfig =>
      rcases hcause with hcause | ⟨-, hlong, -⟩
      · have hrefused := Mutation.apply_eq_error_iff.2 hcause
        rw [happly] at hrefused
        cases hrefused
      · rw [LogEntry.frame_eq_error_iff.2 ⟨hlong, rfl⟩] at hframe
        cases hframe

/-- A change that succeeds is one entry more in the log, and is made to memory. -/
theorem logThenApply_eq_ok (h : logThenApply m s = (.ok (), s')) :
    m.apply s.memory = (.ok (), s'.memory) ∧ s'.nextSeq = s.nextSeq + 1 ∧ s'.config = s.config ∧
      ∃ bs, LogEntry.frame s.config.maxEntrySize ⟨s.nextSeq, m⟩ = .ok bs ∧
        s'.file = s.file ++ bs := by
  have hverdict := logThenApply_verdict m s
  rw [h] at hverdict
  cases hverdict with
  | logged hframe hfile hnext happly hconfig =>
    exact ⟨happly, hnext, hconfig, _, hframe, hfile⟩

/-! ### Stores that may be closed -/

/-- The store, refusing all further calls on its contents. -/
def close (s : LogStore) : LogStore := { s with memory := s.memory.close }

/-- The stores that `n` steps lead to from an empty directory. A store may be closed at any time, and
calls may follow all the same. -/
inductive InUse (config : StoreConfig) : Nat → LogStore → Prop where
  /-- The new store. -/
  | opened {s : LogStore} (hopen : (openVolume config (some .empty)).1 = .ok s) : InUse config 0 s
  /-- A call, or a restart on what is left of the log. -/
  | step {n : Nat} {s s' : LogStore} (h : InUse config n s) (hstep : Step config s s') :
      InUse config (n + 1) s'
  /-- The end of all calls. -/
  | close {n : Nat} {s : LogStore} (h : InUse config n s) : InUse config (n + 1) s.close

theorem validate_of_openVolume {directory : Option Volume}
    (hopen : (openVolume config directory).1 = .ok s) : config.validate = .ok () := by
  unfold openVolume at hopen
  split at hopen
  · cases hopen
  · case h_2 hvalid => exact hvalid

theorem InUse.validate (h : InUse config n s) : config.validate = .ok () := by
  induction h with
  | opened hopen => exact validate_of_openVolume hopen
  | step _ _ ih => exact ih
  | close _ ih => exact ih

/-- A checkpoint of a closed store fails, unless there are no partitions to write. -/
theorem checkpoint_close (s : LogStore) :
    (checkpoint s.close).2 = s.unfinished.close ∨
      (checkpoint s.close).2 = (checkpoint s).2.close := by
  have hnames : s.close.flush.memory.partitionNames = s.memory.partitionNames := rfl
  unfold checkpoint
  simp only [hnames]
  cases hlist : s.memory.partitionNames with
  | nil =>
    have hlive : s.flush.memory.partitionNames = [] := hlist
    simp only [hlive, framePartitions]
    exact .inr rfl
  | cons name names =>
    left
    -- the entry that creates the first partition may fit, but then the partition is not read
    have hread : s.close.flush.memory.partition name = .error .closed := rfl
    simp only [framePartitions]
    cases LogEntry.frame s.close.flush.config.maxEntrySize
        ⟨0 + 1, .create name (s.close.flush.memory.operator? name)⟩ with
    | error e => rfl
    | ok bs =>
      rw [hread]
      rfl

theorem commit_close (s : LogStore) (name : String) (ds : List Decision) :
    (commit name ds s.close).2 = s.close := by
  have hread : s.close.memory.partition name = .error .closed := rfl
  have hfirst : onMemory (MemoryStore.commit name ds) s.close
      = (.error (.access .accessingStore .closed), s.close) := by
    simp only [onMemory, MemoryStore.commit_run_of_error hread]
  rw [commit, Call.bind_of_error hfirst]

/-- The log of a store in use can be read, closed or not. -/
theorem InUse.legible (h : InUse config n s) (hn : n < 0x10000000000000000) :
    ∃ s₀ ms, s₀.Legible ms n ∧ s₀.config = config ∧ (s = s₀ ∨ s = s₀.close) := by
  have hvalid := h.validate
  -- a closed store is followed as the one it was when it was closed
  induction h with
  | opened hopen =>
    obtain ⟨ms, hlegible, hconfig⟩ := (Surviving.opened hopen).legible hvalid hn
    exact ⟨_, ms, hlegible, hconfig, .inl rfl⟩
  | @close n s h ih =>
    obtain ⟨s₀, ms, hlegible, hconfig, rfl | rfl⟩ := ih (by omega)
    · exact ⟨s, ms, hlegible.mono (Nat.le_succ n), hconfig, .inr rfl⟩
    · exact ⟨s₀, ms, hlegible.mono (Nat.le_succ n), hconfig, .inr rfl⟩
  | @step n s s' h hstep ih =>
    obtain ⟨s₀, ms, hlegible, rfl, rfl | rfl⟩ := ih (by omega)
    · obtain ⟨ms', hlegible', hconfig⟩ := hlegible.step hvalid (by omega) hstep
      exact ⟨s', ms', hlegible', hconfig, .inl rfl⟩
    · -- a closed store changes nothing but its log
      have hnext := hlegible.mono (Nat.le_succ n)
      cases hstep with
      | change m => exact ⟨s₀, ms, hnext, rfl, .inr rfl⟩
      | sync => exact ⟨s₀.sync, ms, hnext.sync, rfl, .inr rfl⟩
      | checkpoint =>
        rcases checkpoint_close s₀ with hfail | hdone
        · exact ⟨s₀.unfinished, ms, hnext.unfinished, rfl, .inr hfail⟩
        · obtain ⟨ms', hlegible', hconfig⟩ := hnext.checkpoint
          exact ⟨_, ms', hlegible', hconfig, .inr hdone⟩
      | commit name ds => exact ⟨s₀, ms, hnext, rfl, .inr (commit_close s₀ name ds)⟩
      | restart hlog hleft hopen =>
        obtain ⟨ms', hlegible', hconfig⟩ :=
          hlegible.restart hvalid (by omega) hlog hleft hopen
        exact ⟨s', ms', hlegible'.mono (Nat.le_succ n), hconfig, .inl rfl⟩

/-- The log of a store in use is that of some changes, and the next number is behind theirs. -/
theorem InUse.logged (h : InUse config n s) (hn : n < 0x10000000000000000) :
    ∃ ms log, s.config = config ∧ s.file = logHeader ++ log ∧
      Logged config.maxEntrySize 0 ms log ∧ s.nextSeq = ms.length + 1 ∧ ms.length ≤ n := by
  obtain ⟨s₀, ms, hlegible, rfl, rfl | rfl⟩ := h.legible hn
  all_goals
    obtain ⟨log, hfile, hlogged⟩ := hlegible.logged
    exact ⟨ms, log, rfl, hfile, hlogged, hlegible.next, hlegible.count⟩

/-- A store in use can be shut at any time, and opens again. -/
theorem InUse.reopens (h : InUse config n s) (hn : n < 0x10000000000000000) :
    ∃ s', (openVolume config (some s.shut)).1 = .ok s' := by
  have hvalid := h.validate
  obtain ⟨s₀, ms, hlegible, rfl, rfl | rfl⟩ := h.legible hn
  all_goals
    obtain ⟨s', hopen, -⟩ := hlegible.reopen hvalid hn
    exact ⟨s', hopen⟩

/-- The entry of a change that was logged is the last one of the log. -/
theorem InUse.fileEntries_of_ok (h : InUse config n s) (hn : n + 1 < 0x10000000000000000)
    (hrun : logThenApply m s = (.ok (), s')) :
    fileEntries s.config.maxEntrySize s'.file
      = fileEntries s.config.maxEntrySize s.file ++ [⟨s.nextSeq, m⟩] := by
  obtain ⟨-, -, -, bs, hframe, hfile⟩ := logThenApply_eq_ok hrun
  obtain ⟨ms, log, rfl, hlog, hlogged, hnext, hcount⟩ := h.logged (by omega)
  rw [hnext] at hframe ⊢
  have hconcat := hlogged.concat (by rwa [Nat.zero_add])
  have hlength : (ms ++ [m]).length < 0x10000000000000000 := by
    rw [List.length_append]
    show ms.length + 1 < _
    omega
  rw [hfile, hlog, List.append_assoc, hconcat.fileEntries_eq hlength,
    hlogged.fileEntries_eq (by omega), numbered_concat, Nat.zero_add]

/-- **What the log accepts can be applied, and what it refuses leaves no trace.** A change of any store,
closed or not, fails if the memory store has a cause to refuse it, and otherwise if its entry is too
long; the error tells which, and the store is as it was. A change that succeeds has added one entry to
the log, with the next number, and made of memory what the memory store makes of it. What was checked
and then logged is applied without fail. So the entries of a log that has been in use are those before
and this one, and the log can be replayed after every call. -/
theorem change_accepted_or_traceless (s : LogStore) (m : Mutation) :
    (∀ e s', logThenApply m s = (.error e, s') ↔
      s' = s ∧ (m.Refused s.memory e ∨
        (∀ e', ¬ m.Refused s.memory e') ∧ s.TooLong m ∧
          e = .entryRefused (LogEntry.format.write ⟨s.nextSeq, m⟩).length
            s.config.maxEntrySize)) ∧
    (∀ s', logThenApply m s = (.ok (), s') →
      m.apply s.memory = (.ok (), s'.memory) ∧ s'.nextSeq = s.nextSeq + 1 ∧
        s'.config = s.config ∧ ∃ bs,
          LogEntry.frame s.config.maxEntrySize ⟨s.nextSeq, m⟩ = .ok bs ∧
            s'.file = s.file ++ bs) ∧
    (∀ s₁, s.memory.closed = false → refusal s.memory m = .ok () → s.append m = .ok s₁ →
      (m.apply s₁.memory).1 = .ok ()) ∧
    ∀ config n, InUse config n s → n + 1 < 0x10000000000000000 →
      (∀ s', logThenApply m s = (.ok (), s') →
        fileEntries s.config.maxEntrySize s'.file
          = fileEntries s.config.maxEntrySize s.file ++ [⟨s.nextSeq, m⟩]) ∧
      ∃ s', (openVolume config (some (logThenApply m s).2.shut)).1 = .ok s' := by
  refine ⟨fun _ _ => logThenApply_eq_error_iff, fun _ => logThenApply_eq_ok, ?_, ?_⟩
  · intro s₁ hc hcheck happend
    -- appending leaves memory alone, so what was checked is what the change is applied to
    obtain ⟨-, -, -, -, hmemory, -⟩ := append_eq_ok happend
    rw [hmemory, Mutation.apply_fst, hc, if_neg Bool.false_ne_true, hcheck]
  · intro config n h hn
    exact ⟨fun s' hrun => h.fileEntries_of_ok hn hrun, (h.step (.change s m)).reopens hn⟩

/-- A partition that cannot merge: a merge of it is not logged, and a value is, behind the partition's
own entry. -/
theorem refused_merge_is_not_logged :
    let config : StoreConfig := ⟨"state", 2, true, 64⟩
    let s : LogStore :=
      (logThenApply (.create "p" none) (onFile config logHeader MemoryStore.empty 0 false)).2
    InUse config 1 s ∧
      logThenApply (.merge "p" [1] [10]) s = (.error (.mergeNotSupported "p"), s) ∧
      fileEntries 64 (logThenApply (.put "p" [1] [10]) s).2.file
        = [⟨1, .create "p" none⟩, ⟨2, .put "p" [1] [10]⟩] := by
  intro config s
  have hs : InUse config 1 s := (InUse.opened rfl).step (.change _ _)
  refine ⟨hs, ?_, ?_⟩
  · obtain ⟨herror, -⟩ := s.change_accepted_or_traceless (.merge "p" [1] [10])
    exact (herror _ _).2 ⟨rfl, .inl (.unmerged [1] [10] rfl (by decide +kernel) (by decide +kernel))⟩
  · obtain ⟨-, -, -, hused⟩ := s.change_accepted_or_traceless (.put "p" [1] [10])
    obtain ⟨hentries, -⟩ := hused config 1 hs (by decide)
    have hbefore : fileEntries 64 s.file = [⟨1, .create "p" none⟩] := by decide +kernel
    have hlimit : s.config.maxEntrySize = 64 := by decide +kernel
    have hnext : s.nextSeq = 2 := by decide +kernel
    have hlogged : (logThenApply (.put "p" [1] [10]) s).1.isOk = true := by decide +kernel
    rcases hrun : logThenApply (.put "p" [1] [10]) s with ⟨_ | _, s'⟩
    · rw [hrun] at hlogged
      cases hlogged
    · have hentries := hentries s' hrun
      rwa [hlimit, hbefore, hnext] at hentries

end LogStore

end AppendLists
