import AppendLists.Proofs.Log.Framing
import AppendLists.Proofs.Memory.Effect
import AppendLists.Store.Log.Recovery

namespace AppendLists

/-!
# Logs replayed

A log of changes that were framed in turn, numbered from one on, is replayed change by change.

* `Logged`: the bytes of framed changes, `Logged.append`;
* `numbered`: changes with the numbers they have in a log;
* `readEntries`: the entries of a log, `Logged.readEntries_eq`;
* `Logged.replayFrom_append`, `recover_append`: replay applies the changes in turn, counts them and
  goes on with what stands behind them;
* `replayFrom_torn`, `replayFrom_damaged`: what else it can come to;
* `header_of_recover`: how a file begins that is recovered.
-/

/-! ### Logs of changes -/

/-- The bytes are those of changes framed in turn, numbered behind `seq`. -/
inductive Logged (limit : Nat) : Nat → List Mutation → Bytes → Prop where
  /-- No change. -/
  | nil (seq : Nat) : Logged limit seq [] []
  /-- A change and then the others. -/
  | cons {seq : Nat} {m : Mutation} {ms : List Mutation} {bs log : Bytes}
      (hframe : LogEntry.frame limit ⟨seq + 1, m⟩ = .ok bs)
      (hrest : Logged limit (seq + 1) ms log) :
      Logged limit seq (m :: ms) (bs ++ log)

/-- Changes with the numbers behind `seq`. -/
def numbered : Nat → List Mutation → List LogEntry
  | _, [] => []
  | seq, m :: ms => ⟨seq + 1, m⟩ :: numbered (seq + 1) ms

/-- The entries are numbered one after the other. -/
theorem map_seq_numbered (seq : Nat) (ms : List Mutation) :
    (numbered seq ms).map (·.seq) = List.range' (seq + 1) ms.length := by
  induction ms generalizing seq with
  | nil => rfl
  | cons m ms ih => rw [numbered, List.map_cons, ih, List.length_cons, List.range'_succ]

/-- Behind an entry there is less to read. -/
theorem length_drop_lt {limit size : Nat} {log : Bytes} {e : LogEntry}
    (h : readEntry limit log = .entry e size) : (log.drop size).length < log.length := by
  have hsize := size_of_readEntry h
  rw [List.length_drop]
  simp only [entryOverhead] at hsize
  omega

/-- The entries of a log, if it consists of entries. -/
def readEntries (limit : Nat) (log : Bytes) : Option (List LogEntry) :=
  match h : readEntry limit log with
  | .finished => some []
  | .entry e size =>
    have := length_drop_lt h
    (readEntries limit (log.drop size)).map (e :: ·)
  | .short => none
  | .damaged _ _ => none
termination_by log.length
decreasing_by exact this

/-- At the end of the file the replay is done. -/
theorem readEntry_nil (limit : Nat) : readEntry limit [] = .finished := rfl

theorem readEntries_nil (limit : Nat) : readEntries limit [] = some [] := by
  have hread := readEntry_nil limit
  rw [readEntries]
  split <;> simp_all

/-- An entry is read, and then those behind it. -/
theorem readEntries_entry {limit : Nat} {bs log : Bytes} {e : LogEntry}
    (h : readEntry limit (bs ++ log) = .entry e bs.length) :
    readEntries limit (bs ++ log) = (readEntries limit log).map (e :: ·) := by
  rw [readEntries]
  split <;> simp_all

/-! ### Replay, step by step -/

/-- An entry whose change succeeds is applied and counted. -/
theorem replayFrom_entry {limit : Nat} {bs log : Bytes} {e : LogEntry} {r : Recovered}
    {memory : MemoryStore} (h : readEntry limit (bs ++ log) = .entry e bs.length)
    (happly : e.mutation.apply r.memory = (.ok (), memory)) :
    replayFrom limit (bs ++ log) r
      = replayFrom limit log ⟨memory, max r.maxSeq e.seq, r.validLength + bs.length⟩ := by
  rw [replayFrom]
  split <;> simp_all

/-- What is no more than a part of an entry ends the replay. -/
theorem replayFrom_torn {limit : Nat} {bs : Bytes} {r : Recovered}
    (h : readEntry limit bs = .finished ∨ readEntry limit bs = .short) :
    replayFrom limit bs r = .ok r := by
  rw [replayFrom]
  rcases h with h | h <;> split <;> simp_all

/-- Damage is corruption if it announces an end before the end of the log, and otherwise ends the
replay. -/
theorem replayFrom_damaged {limit size : Nat} {bs : Bytes} {cause : StorageError} {r : Recovered}
    (h : readEntry limit bs = .damaged size cause) :
    replayFrom limit bs r
      = if size < bs.length then .error (.damagedEntry r.validLength (bs.length - size) cause)
        else .ok r := by
  rw [replayFrom]
  split <;> simp_all

theorem replayFrom_nil (limit : Nat) (r : Recovered) : replayFrom limit [] r = .ok r :=
  replayFrom_torn (.inl (readEntry_nil limit))

namespace Logged

variable {limit seq : Nat} {ms : List Mutation} {log : Bytes}

/-- Further changes are framed behind the others. -/
theorem append (h : Logged limit seq ms log) {ms' : List Mutation} {log' : Bytes}
    (h' : Logged limit (seq + ms.length) ms' log') :
    Logged limit seq (ms ++ ms') (log ++ log') := by
  induction h with
  | nil seq => exact h'
  | @cons seq m ms bs log hframe hrest ih =>
    rw [List.cons_append, List.append_assoc]
    apply Logged.cons hframe
    apply ih
    rw [List.length_cons] at h'
    rwa [Nat.add_assoc, Nat.add_comm 1]

/-- One more change behind the others. -/
theorem concat (h : Logged limit seq ms log) {m : Mutation} {bs : Bytes}
    (hframe : LogEntry.frame limit ⟨seq + ms.length + 1, m⟩ = .ok bs) :
    Logged limit seq (ms ++ [m]) (log ++ bs) := by
  have hone : Logged limit (seq + ms.length) [m] (bs ++ []) := .cons hframe (.nil _)
  rw [List.append_nil] at hone
  exact h.append hone

/-- The entries of a log are its changes with their numbers. -/
theorem readEntries_eq (h : Logged limit seq ms log)
    (hseq : seq + ms.length < 0x10000000000000000) :
    readEntries limit log = some (numbered seq ms) := by
  induction h with
  | nil seq => exact readEntries_nil limit
  | @cons seq m ms bs log hframe hrest ih =>
    rw [List.length_cons] at hseq
    have hread := readEntry_frame hframe (by show seq + 1 < _; omega) (Nat.le_refl limit) log
    rw [readEntries_entry hread, ih (by omega)]
    rfl

/-- Replay applies the changes of a log in turn, under every limit that is no smaller, and goes on
with what stands behind them. -/
theorem replayFrom_append (h : Logged limit seq ms log)
    (hseq : seq + ms.length < 0x10000000000000000) {limit' : Nat} (hle : limit ≤ limit')
    {memory memory' : MemoryStore} (validLength : Nat)
    (happly : Mutation.applyAll ms memory = .ok memory') (tail : Bytes) :
    replayFrom limit' (log ++ tail) ⟨memory, seq, validLength⟩
      = replayFrom limit' tail ⟨memory', seq + ms.length, validLength + log.length⟩ := by
  induction h generalizing memory validLength with
  | nil seq =>
    obtain rfl : memory = memory' := Except.ok.inj happly
    rfl
  | @cons seq m ms bs log hframe hrest ih =>
    rw [List.length_cons] at hseq
    have hread := readEntry_frame hframe (by show seq + 1 < _; omega) hle (log ++ tail)
    simp only [Mutation.applyAll] at happly
    split at happly
    · case h_1 memory₁ hfirst =>
      -- the greatest number so far is the last one, because there are no gaps
      have hmax : max seq (seq + 1) = seq + 1 := by omega
      rw [List.append_assoc, replayFrom_entry hread hfirst]
      simp only [hmax]
      rw [ih (by omega) _ happly, List.length_cons, List.length_append]
      simp only [Nat.add_assoc, Nat.add_comm 1]
    · cases happly

end Logged

/-- Behind its header a log is replayed into an empty store. -/
theorem recover_header (limit : Nat) (log : Bytes) :
    recover limit (logHeader ++ log)
      = replayFrom limit log ⟨MemoryStore.empty, 0, logHeader.length⟩ := rfl

/-- Only files that begin with the header are recovered. -/
theorem header_of_recover {limit : Nat} {file : Bytes} {r : Recovered}
    (h : recover limit file = .ok r) : ∃ log, file = logHeader ++ log := by
  unfold recover at h
  split at h
  · cases h
  · split at h
    · cases h
    · case isFalse hmagic =>
      split at h
      · cases h
      · case h_2 version entries hdrop =>
        split at h
        · cases h
        · case isFalse hversion =>
          refine ⟨entries, ?_⟩
          rw [← List.take_append_drop logMagic.length file, hdrop, Decidable.not_not.1 hmagic,
            Decidable.not_not.1 hversion]
          rfl

/-- A log with its header is recovered to what its changes make of an empty store, and goes on with
what stands behind them. -/
theorem recover_append {limit : Nat} {ms : List Mutation} {log : Bytes} (h : Logged limit 0 ms log)
    (hseq : ms.length < 0x10000000000000000) {limit' : Nat} (hle : limit ≤ limit')
    {memory : MemoryStore} (happly : Mutation.applyAll ms MemoryStore.empty = .ok memory)
    (tail : Bytes) :
    recover limit' (logHeader ++ log ++ tail)
      = replayFrom limit' tail ⟨memory, ms.length, (logHeader ++ log).length⟩ := by
  rw [List.append_assoc, recover_header,
    h.replayFrom_append (by omega) hle logHeader.length happly, Nat.zero_add, List.length_append]

/-- So it is recovered whole if nothing does. -/
theorem recover_eq {limit : Nat} {ms : List Mutation} {log : Bytes} (h : Logged limit 0 ms log)
    (hseq : ms.length < 0x10000000000000000) {limit' : Nat} (hle : limit ≤ limit')
    {memory : MemoryStore} (happly : Mutation.applyAll ms MemoryStore.empty = .ok memory) :
    recover limit' (logHeader ++ log)
      = .ok ⟨memory, ms.length, (logHeader ++ log).length⟩ := by
  have happend := recover_append h hseq hle happly []
  rwa [List.append_nil, replayFrom_nil] at happend

end AppendLists
