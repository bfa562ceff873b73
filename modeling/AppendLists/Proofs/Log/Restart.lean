import AppendLists.Proofs.Log.Durable

namespace AppendLists

/-!
# Restarts leave no trace

A log store with restarts in between is compared with a memory store that carries out the same
changes and passes and is never restarted. Left out are passes whose memory step succeeds and whose
checkpoint then fails.

* `LogStep`, `Twin`: the steps, and the two stores;
* `Twin.step`, `Twin.run`: what a step does to both;
* `Twin.Torn`, `Twin.Untorn`: the passes that are left out;
* `Twin.Agrees`: the invariant, with the changes of the log;
* `Twin.Exact`: what holds besides if there were neither checkpoints nor passes;
* `Twin.advances`, `Twin.run_agrees`: one step, and a whole run;
* `Twin.Matches`, `LogStore.Sequential`: equal answers, and a log without gaps;
* `LogStore.restarts_leave_no_trace`: what is found after any run from an empty directory.
-/

/-- A step of a run. -/
inductive LogStep where
  /-- A change. -/
  | change (m : Mutation)
  /-- A synchronization. -/
  | sync
  /-- A checkpoint. -/
  | checkpoint
  /-- A compaction pass. -/
  | compact (name : String) (filter : Option PureFilter)
  /-- The end of the store, and its opening. -/
  | restart

/-- Whether the step is no checkpoint and no pass. -/
def LogStep.Plain : LogStep → Prop
  | .checkpoint | .compact _ _ => False
  | _ => True

/-- A log store beside the memory store that it is compared with. -/
structure Twin where
  /-- The log store. -/
  log : LogStore
  /-- The memory store. -/
  mirror : MemoryStore

namespace Twin

/-- One step. The memory store takes part in the changes and passes that succeed on the log store;
only a restart can fail as a step. -/
def step (t : Twin) : LogStep → Except StorageError Twin
  | .change m =>
    match LogStore.logThenApply m t.log with
    | (.ok (), log) => .ok ⟨log, (m.apply t.mirror).2⟩
    | (.error _, log) => .ok { t with log }
  | .sync => .ok { t with log := t.log.sync }
  | .checkpoint => .ok { t with log := (LogStore.checkpoint t.log).2 }
  | .compact name filter =>
    match AppendLists.compact name (filter.map PureFilter.toFilter) (t.log, ()) with
    | (.ok _, log, ()) =>
      .ok ⟨log, (AppendLists.compact name (filter.map PureFilter.toFilter) (t.mirror, ())).2.1⟩
    | (.error _, log, ()) => .ok { t with log }
  | .restart =>
    (LogStore.openVolume t.log.config (some t.log.shut)).1.map fun log => { t with log }

/-- Steps in turn, up to the first that fails. -/
def run : List LogStep → Twin → Except StorageError Twin
  | [], t => .ok t
  | op :: ops, t => (t.step op).bind (run ops)

/-- Whether the step is a pass whose memory step succeeds and whose checkpoint then fails. -/
def Torn (t : Twin) : LogStep → Prop
  | .compact name filter =>
    (∃ stats, (AppendLists.compact name (filter.map PureFilter.toFilter) (t.log.memory, ())).1
        = .ok stats) ∧
      ∃ e, (AppendLists.compact name (filter.map PureFilter.toFilter) (t.log, ())).1 = .error e
  | _ => False

/-- Whether no step of a run is such a pass. -/
def Untorn : List LogStep → Twin → Prop
  | [], _ => True
  | op :: ops, t => ¬ t.Torn op ∧ ∀ t', t.step op = .ok t' → Untorn ops t'

/-- A change leaves the log store as the call does. -/
theorem log_of_step_change {t t' : Twin} {m : Mutation} (h : t.step (.change m) = .ok t') :
    t'.log = (LogStore.logThenApply m t.log).2 := by
  simp only [step] at h
  split at h
  · case h_1 log hrun =>
    obtain rfl := Except.ok.inj h
    rw [hrun]
  · case h_2 e log hrun =>
    obtain rfl := Except.ok.inj h
    rw [hrun]

/-! ### The invariant -/

/-- After `n` steps, the log is durable with the changes `ms`, and both stores have the same
contents. -/
structure Agrees (t : Twin) (ms : List Mutation) (n : Nat) : Prop where
  /-- The log replays to the contents of the log store, and has no more changes than there were
  steps. -/
  within : t.log.Within ms n
  /-- The contents are those of the memory store. -/
  contents : t.log.memory.contents = t.mirror.contents
  /-- The memory store is open. -/
  opened : t.mirror.closed = false
  /-- It satisfies the invariant. -/
  sound : t.mirror.Sound

/-- The log replays to the log store itself, and that is the memory store: operands, versions and
all. -/
def Exact (t : Twin) (ms : List Mutation) : Prop :=
  Mutation.applyAll ms MemoryStore.empty = .ok t.log.memory ∧ t.log.memory = t.mirror

/-- A step that succeeds and keeps the stores together. -/
def Advances (t : Twin) (ms : List Mutation) (n : Nat) (op : LogStep) : Prop :=
  ∃ t' ms', t.step op = .ok t' ∧ t'.Agrees ms' (n + 1) ∧ t'.log.config = t.log.config ∧
    (op.Plain → t.Exact ms → t'.Exact ms')

variable {t : Twin} {ms : List Mutation} {n : Nat}

theorem Agrees.mono (h : t.Agrees ms n) : t.Agrees ms (n + 1) :=
  { h with within := h.within.mono (Nat.le_succ n) }

/-- A change does the same to the store that is restarted and to the one that is not. -/
theorem advances_change (h : t.Agrees ms n) (m : Mutation) : t.Advances ms n (.change m) := by
  unfold Advances step
  rcases h.within.logThenApply m with ⟨e, hrun⟩ | ⟨log, hrun, hwithin, happly, hconfig⟩
  · simp only [hrun]
    exact ⟨_, ms, rfl, h.mono, rfl, fun _ hexact => hexact⟩
  · simp only [hrun]
    -- the change has an effect on the common contents, so it succeeds on both sides
    have heffect := (Mutation.effect_of_apply h.within.durable.opened happly).1
    rw [h.contents] at heffect
    obtain ⟨mirror, hmirror, hcontents, hopened⟩ := Mutation.apply_of_effect h.opened heffect
    have hsound := h.sound.apply m
    rw [hmirror] at hsound ⊢
    refine ⟨_, _, rfl, ⟨hwithin, hcontents.symm, hopened, hsound⟩, hconfig, ?_⟩
    rintro - ⟨hall, hsame⟩
    rw [← hsame, happly] at hmirror
    refine ⟨?_, (Prod.mk.inj hmirror).2⟩
    rw [Mutation.applyAll_append hall]
    simp only [Mutation.applyAll, happly]

/-- Synchronizing keeps them together. -/
theorem advances_sync (h : t.Agrees ms n) : t.Advances ms n .sync := by
  have hnext := h.mono
  exact ⟨_, ms, rfl, ⟨hnext.within.sync, h.contents, h.opened, h.sound⟩, rfl,
    fun _ hexact => hexact⟩

/-- So does a checkpoint, of which the contents are those in memory. -/
theorem advances_checkpoint (h : t.Agrees ms n) : t.Advances ms n .checkpoint := by
  unfold Advances step
  have hnext := h.mono
  rcases hnext.within.checkpoint with ⟨e, hrun⟩ | ⟨log, hrun, hwithin, hmemory, hconfig⟩
  · rw [hrun]
    exact ⟨_, ms, rfl, ⟨hnext.within.unfinished, h.contents, h.opened, h.sound⟩, rfl, nofun⟩
  · rw [hrun]
    have hcontents : log.memory.contents = t.mirror.contents := by rw [hmemory, h.contents]
    exact ⟨_, _, rfl, ⟨hwithin, hcontents, h.opened, h.sound⟩, hconfig, nofun⟩

/-- A pass comes out whole, because its checkpoint does not fail behind its memory step. -/
theorem advances_compact (h : t.Agrees ms n) {name : String} {filter : Option PureFilter}
    (huntorn : ¬ t.Torn (.compact name filter)) : t.Advances ms n (.compact name filter) := by
  unfold Advances step
  have hnext := h.mono
  have hdurable := h.within.durable
  cases hp : t.log.memory.partition name with
  | error e =>
    simp only [compact_of_capture_error (LogStore.capture_run_of_error hp)]
    exact ⟨_, ms, rfl, hnext, rfl, nofun⟩
  | ok p =>
    have hcapture := LogStore.capture_run hp
    have hdecide := PureFilter.decideAll_eq filter p.captured (t.log, ())
    cases hds : PureFilter.decisions filter p.captured with
    | error e =>
      rw [hds] at hdecide
      simp only [compact_of_decideAll_error hcapture hdecide]
      exact ⟨_, ms, rfl, hnext, rfl, nofun⟩
    | ok ds =>
      rw [hds] at hdecide
      have hrun := compact_of_decideAll hcapture hdecide
      have hcontents := MemoryStore.contents_commitDecisions hdurable.sound hp hds
        (.visited ds.length)
      -- the filter answers from values alone, so it decides alike over the memory store
      obtain ⟨_, mirror, hmirror, hmirrored, hsound, hopened⟩ :=
        MemoryStore.compact_of_decisions hdurable.sound hp h.sound h.opened h.contents hds ()
      have hagree : (t.log.committed name p ds).memory.contents = mirror.contents := by
        rw [hmirrored, ← h.contents]
        exact hcontents
      have hcommit : Store.commit name ds t.log = LogStore.commit name ds t.log := rfl
      rcases hnext.within.commit hp (PureFilter.captured_of_decisions hds) with
        ⟨stats, hok, hwithin⟩ | ⟨stats, log, hok, hwithin, hmemory, hconfig⟩ | ⟨e, herror⟩
      · rw [hcommit, hok] at hrun
        simp only [hrun, hmirror]
        exact ⟨_, ms, rfl, ⟨hwithin, hagree, hopened, hsound⟩, rfl, nofun⟩
      · rw [hcommit, hok] at hrun
        simp only [hrun, hmirror]
        rw [← hmemory] at hagree
        exact ⟨_, _, rfl, ⟨hwithin, hagree, hopened, hsound⟩, hconfig, nofun⟩
      · -- the memory step of this pass succeeds, so it would be torn
        rw [hcommit, herror] at hrun
        obtain ⟨stats, _, hmemory, _⟩ := MemoryStore.compact_of_decisions hdurable.sound hp
          hdurable.sound hdurable.opened rfl hds ()
        exact absurd ⟨⟨stats, by rw [hmemory]⟩, e, by rw [hrun]⟩ huntorn

/-- A restart finds what was logged, and the other store goes on. -/
theorem advances_restart (h : t.Agrees ms n) (hvalid : t.log.config.validate = .ok ())
    (hn : n < 0x10000000000000000) : t.Advances ms n .restart := by
  unfold Advances step
  obtain ⟨log, hopen, hwithin, hconfig, hall, hcontents⟩ := h.within.reopen hvalid hn
  rw [hopen]
  refine ⟨{ t with log }, ms, rfl,
    ⟨hwithin.mono (Nat.le_succ n), hcontents.trans h.contents, h.opened, h.sound⟩, hconfig, ?_⟩
  rintro - ⟨hexact, hsame⟩
  -- without checkpoints the log replays to the very store, operands included
  have hmemory : log.memory = t.log.memory := Except.ok.inj (hall.symm.trans hexact)
  exact ⟨hall, hmemory.trans hsame⟩

/-- Every step succeeds and keeps the stores together. -/
theorem advances (h : t.Agrees ms n) (hvalid : t.log.config.validate = .ok ())
    (hn : n < 0x10000000000000000) {op : LogStep} (huntorn : ¬ t.Torn op) :
    t.Advances ms n op := by
  cases op with
  | change m => exact advances_change h m
  | sync => exact advances_sync h
  | checkpoint => exact advances_checkpoint h
  | compact name filter => exact advances_compact h huntorn
  | restart => exact advances_restart h hvalid hn

/-- So does every run. -/
theorem run_agrees (h : t.Agrees ms n) (hvalid : t.log.config.validate = .ok ())
    {ops : List LogStep} (hseq : n + ops.length < 0x10000000000000000) (huntorn : t.Untorn ops) :
    ∃ t' ms', run ops t = .ok t' ∧ t'.Agrees ms' (n + ops.length) ∧
      t'.log.config = t.log.config ∧
      ((∀ op ∈ ops, op.Plain) → t.Exact ms → t'.Exact ms') := by
  -- the changes of the log grow, shrink or stay with each step, so they are general
  induction ops generalizing t ms n with
  | nil => exact ⟨t, ms, rfl, h, rfl, fun _ hexact => hexact⟩
  | cons op ops ih =>
    obtain ⟨hop, hops⟩ := huntorn
    rw [List.length_cons] at hseq
    obtain ⟨t₁, ms₁, hstep, h₁, hconfig₁, hexact₁⟩ := advances h hvalid (by omega) hop
    rw [← hconfig₁] at hvalid
    obtain ⟨t', ms', hrun, h', hconfig', hexact'⟩ := ih h₁ hvalid (by omega) (hops t₁ hstep)
    refine ⟨t', ms', ?_, ?_, hconfig'.trans hconfig₁, ?_⟩
    · rw [run, hstep]
      exact hrun
    · rw [List.length_cons]
      rwa [Nat.add_assoc, Nat.add_comm 1] at h'
    · intro hplain hexact
      obtain ⟨hplain₁, hplain'⟩ := List.forall_mem_cons.1 hplain
      exact hexact' hplain' (hexact₁ hplain₁ hexact)

/-! ### What is found after a run -/

/-- Both stores answer alike. -/
structure Matches (t : Twin) : Prop where
  /-- Values. -/
  get : ∀ name key, (Store.get name key t.log).1 = (Store.get name key t.mirror).1
  /-- Listings. -/
  scan : ∀ name, (Store.scan name t.log).1 = (Store.scan name t.mirror).1
  /-- Names of partitions. -/
  names : t.log.memory.partitionNames = t.mirror.partitionNames
  /-- Ways of merging. -/
  operators : ∀ name, t.log.memory.operator? name = t.mirror.operator? name

/-- Two that agree answer alike. -/
theorem Agrees.matches (h : t.Agrees ms n) : t.Matches := by
  have hclosed := h.within.durable.opened.trans h.opened.symm
  exact ⟨MemoryStore.get_congr h.contents hclosed, MemoryStore.scan_congr h.contents hclosed,
    MemoryStore.partitionNames_congr h.contents, MemoryStore.operator?_congr h.contents⟩

end Twin

namespace LogStore

/-- The log, the bytes not flushed yet included, consists of entries numbered from one on without a
gap, and the next change gets the next number. -/
def Sequential (s : LogStore) : Prop :=
  ∃ log es, s.written ++ s.buffered = logHeader ++ log ∧
    readEntries s.config.maxEntrySize log = some es ∧
    es.map (·.seq) = List.range' 1 es.length ∧ s.nextSeq = es.length + 1

/-- The entries of the log are numbered one after the other. -/
theorem Durable.sequential {s : LogStore} {ms : List Mutation} (h : s.Durable ms)
    (hseq : ms.length < 0x10000000000000000) : s.Sequential := by
  obtain ⟨log, hlog, hlogged⟩ := h.logged
  have hseqs := map_seq_numbered 0 ms
  have hlength : (numbered 0 ms).length = ms.length := by
    rw [← List.length_map (f := LogEntry.seq), hseqs, List.length_range']
  refine ⟨log, numbered 0 ms, hlog, hlogged.readEntries_eq (by omega), ?_, ?_⟩
  · rw [hseqs, hlength]
  · rw [hlength]
    exact h.next

/-- **Restarts leave no trace.** In an empty directory a store opens, and after any run without torn
passes that leaves the sequence numbers in 64 bits: every restart on the way has succeeded; the
store answers as a memory store that was never restarted; its log is numbered without a gap; and if
the run had no checkpoints and no passes, one more restart keeps the number of unresolved operands
of every key. -/
theorem restarts_leave_no_trace {config : StoreConfig} (hvalid : config.validate = .ok ())
    {ops : List LogStep} (hlength : ops.length < 0xFFFFFFFFFFFFFFFF) :
    ∃ s, (openVolume config (some .empty)).1 = .ok s ∧
      (Twin.Untorn ops ⟨s, MemoryStore.empty⟩ →
        ∃ t, Twin.run ops ⟨s, MemoryStore.empty⟩ = .ok t ∧ t.Matches ∧ t.log.Sequential ∧
          ((∀ op ∈ ops, op.Plain) →
            ∃ s', (openVolume config (some t.log.shut)).1 = .ok s' ∧
              ∀ name key, s'.memory.pending name key = t.log.memory.pending name key)) := by
  obtain ⟨s, hopen, hdurable, hconfig, hmemory⟩ := openVolume_empty hvalid
  refine ⟨s, hopen, ?_⟩
  intro huntorn
  -- the twins agree in the beginning, and every step keeps it
  have hstart : Twin.Agrees ⟨s, MemoryStore.empty⟩ [] 0 :=
    ⟨⟨hdurable, Nat.le_refl 0, by rw [hmemory]; decide⟩, by rw [hmemory], rfl,
      MemoryStore.Sound.empty⟩
  obtain ⟨t, ms, hrun, hagrees, hconfig', hexact⟩ :=
    Twin.run_agrees hstart (by rw [hconfig, hvalid]) (by omega) huntorn
  have hdurable := hagrees.within.durable
  have hcount := hagrees.within.count
  refine ⟨t, hrun, hagrees.matches, hdurable.sequential (by omega), ?_⟩
  intro hplain
  have hconfig : t.log.config = config := hconfig'.trans hconfig
  obtain ⟨hall, _⟩ := hexact hplain ⟨by rw [hmemory]; rfl, hmemory⟩
  -- the log replays to the memory it was written from, operands included
  obtain ⟨s', hreopen, _, _, hall', _⟩ := hdurable.reopen (by rw [hconfig, hvalid]) (by omega)
  rw [hconfig] at hreopen
  have hsame : s'.memory = t.log.memory := Except.ok.inj (hall'.symm.trans hall)
  exact ⟨s', hreopen, by rw [hsame]; exact fun _ _ => rfl⟩

theorem ne_error_of_isOk {ε α : Type} {x : Except ε α} (h : x.isOk = true) (e : ε) :
    x ≠ .error e := by
  rintro rfl
  cases h

/-- Two operands that a pass folds before the store is restarted. -/
theorem restart_after_folding :
    let config : StoreConfig := ⟨"state", 2, true, 64⟩
    let ops : List LogStep :=
      [.change (.create "p" (some (.stringAppend 0x2C))), .change (.merge "p" [1] [10]),
        .change (.merge "p" [1] [11]), .compact "p" none, .restart]
    config.validate = .ok () ∧ ops.length < 0xFFFFFFFFFFFFFFFF ∧
      ∃ s, (openVolume config (some .empty)).1 = .ok s ∧
        Twin.Untorn ops ⟨s, MemoryStore.empty⟩ ∧
        ∃ t, Twin.run ops ⟨s, MemoryStore.empty⟩ = .ok t ∧ t.Matches ∧ t.log.Sequential := by
  intro config ops
  have hvalid : config.validate = .ok () := rfl
  have hlength : ops.length < 0xFFFFFFFFFFFFFFFF := by decide
  obtain ⟨s, hopen, hrun⟩ := restarts_leave_no_trace hvalid hlength
  have huntorn : Twin.Untorn ops ⟨s, MemoryStore.empty⟩ := by
    refine ⟨id, fun t₁ h₁ => ⟨id, fun t₂ h₂ => ⟨id, fun t₃ h₃ => ⟨?_, fun t₄ _ => ?_⟩⟩⟩⟩
    · rintro ⟨-, e, herror⟩
      obtain rfl : onFile config logHeader MemoryStore.empty 0 false = s := Except.ok.inj hopen
      rw [Twin.log_of_step_change h₃, Twin.log_of_step_change h₂, Twin.log_of_step_change h₁]
        at herror
      exact absurd herror (ne_error_of_isOk (by decide +kernel) e)
    · exact ⟨id, fun _ _ => trivial⟩
  obtain ⟨t, ht, hmatches, hsequential, _⟩ := hrun huntorn
  exact ⟨hvalid, hlength, s, hopen, huntorn, t, ht, hmatches, hsequential⟩

end LogStore

end AppendLists
