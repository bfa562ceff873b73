import AppendLists.Proofs.Log.AnyFile
import AppendLists.Proofs.Log.TornPass
import AppendLists.Proofs.Memory.PassAmidChanges

namespace AppendLists

/-!
# Passes over a log store, amid changes

A pass over a log store captures, commits to memory, and then rewrites the log if the commit made a
difference. Other calls may change the store before, between and after these three steps. Until the
log is rewritten it tells the changes as if there were no pass; once the pass has returned it tells
what memory holds, which is what the pass makes of the keys it found untouched, and the changes on
top. So every change that succeeded counts once.

* `ReplaysTo`: what a log is worth, `ReplaysTo.concat`;
* `LogStore.InStep`: a store whose log is worth its contents, `Reached.inStep`,
  `inStep_of_openVolume`;
* `PassRun`, `PassRun.run`: a pass and what comes between its steps, `PassRun.compact_eq_advance`;
* `PassRun.Tells`: what log and memory are worth at each stage, kept by `Tells.step` and `Tells.run`;
* `LogStore.InStep.pass_amid_changes`: a pass with changes anywhere.
-/

/-! ### What a log is worth -/

/-- The file is recovered to its full length, and with these contents. -/
def ReplaysTo (limit : Nat) (file : Bytes) (c : Contents) : Prop :=
  ∃ r, recover limit file = .ok r ∧ r.validLength = file.length ∧ r.memory.contents = c

/-- One more entry behind the others. -/
theorem SoundLog.concat {limit : Nat} {es : List LogEntry} {log : Bytes} (h : SoundLog limit es log)
    {e : LogEntry} {bs : Bytes} (hframed : e.Framed limit bs) :
    SoundLog limit (es ++ [e]) (log ++ bs) := by
  induction h with
  | nil =>
    have hone : SoundLog limit [e] (bs ++ []) := .cons hframed .nil
    rwa [List.append_nil] at hone
  | cons hfirst _ ih =>
    rw [List.append_assoc]
    exact .cons hfirst ih

/-- An entry behind a log has its effect on what the log is worth. -/
theorem ReplaysTo.concat {limit : Nat} {file : Bytes} {c c' : Contents} (h : ReplaysTo limit file c)
    {e : LogEntry} (heffect : e.mutation.effect c = .ok c') {bs : Bytes}
    (hframed : e.Framed limit bs) : ReplaysTo limit (file ++ bs) c' := by
  obtain ⟨r, hrecover, hwhole, rfl⟩ := h
  obtain ⟨es, log, torn, rfl, hlog, -, hall, -, hlength⟩ := recover_eq_ok_iff.1 hrecover
  -- nothing is cut off, so there is no tail
  obtain rfl : torn = [] := by
    have htotal : (logHeader ++ log ++ torn).length = (logHeader ++ log).length + torn.length :=
      List.length_append
    exact List.eq_nil_of_length_eq_zero (by omega)
  obtain ⟨memory, happly, hcontents, -⟩ :=
    Mutation.apply_of_effect (Mutation.closed_applyAll hall) heffect
  have hall' : Mutation.applyAll ((es ++ [e]).map (·.mutation)) MemoryStore.empty
      = .ok memory := by
    rw [List.map_append, Mutation.applyAll_append hall]
    simp only [List.map_cons, List.map_nil, Mutation.applyAll, happly]
  have hfile : logHeader ++ log ++ [] ++ bs = logHeader ++ (log ++ bs) ++ [] := by simp
  rw [hfile]
  refine ⟨⟨memory, highestSeq (es ++ [e]) 0, (logHeader ++ (log ++ bs)).length⟩, ?_, ?_, hcontents⟩
  · exact recover_eq_ok_iff.2
      ⟨es ++ [e], log ++ bs, [], rfl, hlog.concat hframed, tornTail_nil limit, hall', rfl, rfl⟩
  · rw [List.append_nil]

namespace LogStore

variable {config : StoreConfig} {s s' : LogStore} {ms : List Mutation} {n : Nat}

theorem Durable.replaysTo (h : s.Durable ms) (hseq : ms.length < 0x10000000000000000) :
    ReplaysTo s.config.maxEntrySize s.file s.memory.contents := by
  obtain ⟨log, hfile, hlogged⟩ := h.logged
  obtain ⟨memory, hall, hcontents⟩ := h.replays
  change s.file = _ at hfile
  rw [hfile]
  exact ⟨_, recover_eq hlogged hseq (Nat.le_refl _) hall, rfl, hcontents⟩

/-- The store is open, and its log is worth its contents. -/
structure InStep (s : LogStore) : Prop where
  /-- What the log is worth. -/
  replays : ReplaysTo s.config.maxEntrySize s.file s.memory.contents
  /-- The store is open. -/
  opened : s.memory.closed = false
  /-- Its contents satisfy the invariant of memory stores. -/
  sound : s.memory.Sound

/-- Whatever calls and restarts lead to is in step, as long as no pass fails. -/
theorem Reached.inStep (hvalid : config.validate = .ok ()) (h : Reached config n s)
    (hn : n < 0x10000000000000000) : s.InStep := by
  obtain ⟨ms, hwithin, -⟩ := h.within hvalid hn
  exact ⟨hwithin.durable.replaysTo (Nat.lt_of_le_of_lt hwithin.count hn), hwithin.durable.opened,
    hwithin.durable.sound⟩

/-- So is whatever opens on a file, whoever wrote it. -/
theorem inStep_of_openVolume {v : Volume} {file : Bytes} (hlog : v.log = some file)
    (hopen : (openVolume config (some v)).1 = .ok s) : s.InStep := by
  obtain ⟨-, -, r, hrecover, rfl⟩ := recover_of_openVolume hlog hopen
  obtain ⟨es, log, torn, rfl, -, -, hall, -, hlength⟩ := recover_eq_ok_iff.1 hrecover
  have hfile : (onFile config ((logHeader ++ log ++ torn).take r.validLength) r.memory r.maxSeq
      v.scratch).file = (logHeader ++ log ++ torn).take r.validLength := List.append_nil _
  refine ⟨⟨r, ?_, ?_, rfl⟩, Mutation.closed_applyAll hall,
    Mutation.sound_applyAll MemoryStore.Sound.empty hall⟩
  · rw [hfile]
    exact recover_take hrecover
  · rw [hfile, hlength, List.take_left]

theorem file_flush (s : LogStore) : s.flush.file = s.file := List.append_nil _

/-- Neither the log nor a checkpoint of it numbers an entry `n` or higher. -/
structure Room (s : LogStore) (n : Nat) : Prop where
  /-- The numbers of the log. -/
  next : s.nextSeq ≤ n
  /-- The numbers of a checkpoint. -/
  weight : s.memory.weight < n

theorem Room.mono {n' : Nat} (h : s.Room n) (hle : n ≤ n') : s.Room n' :=
  ⟨Nat.le_trans h.next hle, Nat.lt_of_lt_of_le h.weight hle⟩

/-- A change leaves no trace, or it is applied and counts once more on top of whatever the log is
worth. -/
theorem change_outcome (hopened : s.memory.closed = false) (hsound : s.memory.Sound)
    (hroom : s.Room n) (hn : n < 0x10000000000000000) (m : Mutation) :
    (∃ e, logThenApply m s = (.error e, s)) ∨
      ∃ s', logThenApply m s = (.ok (), s') ∧ m.apply s.memory = (.ok (), s'.memory) ∧
        s'.config = s.config ∧ s'.memory.closed = false ∧ s'.memory.Sound ∧ s'.Room (n + 1) ∧
        ∀ c c', ReplaysTo s.config.maxEntrySize s.file c → m.effect c = .ok c' →
          ReplaysTo s.config.maxEntrySize s'.file c' := by
  rcases logThenApply_run hopened m with
    ⟨e, hrun, -⟩ | ⟨s', bs, hrun, hframe, hbytes, hnext, happly, hconfig⟩
  · exact .inl ⟨e, hrun⟩
  · -- the entry is appended whole, so whatever the log told before, it tells one change more
    have hweight := MemoryStore.weight_apply_le s.memory m
    have hsound' := hsound.apply m
    rw [happly] at hweight hsound'
    have hless := hroom.weight
    refine .inr ⟨s', hrun, happly, hconfig, (Mutation.effect_of_apply hopened happly).2, hsound',
      ⟨?_, ?_⟩, ?_⟩
    · rw [hnext]
      exact Nat.succ_le_succ hroom.next
    · show s'.memory.weight < n + 1
      exact Nat.lt_of_le_of_lt hweight (Nat.succ_lt_succ hless)
    · intro c c' hreplays heffect
      have hfile : s'.file = s.file ++ bs := hbytes
      rw [hfile]
      have hseq : s.nextSeq < 0x10000000000000000 := Nat.lt_of_le_of_lt hroom.next hn
      exact hreplays.concat (e := ⟨s.nextSeq, m⟩) heffect (LogEntry.framed_of_frame hframe hseq)

end LogStore

/-! ### A pass and what comes between its steps -/

/-- How far a pass has come. -/
inductive PassStage where
  /-- It has not begun. -/
  | ready
  /-- It has captured, and its filter decides. -/
  | captured (cs : List Captured)
  /-- It has committed to memory, and is about to see whether the log has to be rewritten. -/
  | committed (stats : CompactionStats)
  /-- It has returned, with its report. -/
  | returned (stats : CompactionStats)
  /-- It has returned an error. -/
  | failed (e : StateError)
deriving DecidableEq

/-- The stage of a pass that has come out so. -/
def PassStage.ofResult : Except StateError CompactionStats → PassStage
  | .ok stats => .returned stats
  | .error e => .failed e

/-- A pass over a store, with the changes that succeeded meanwhile, in turn. -/
structure PassRun where
  /-- The store. -/
  store : LogStore
  /-- How far the pass has come. -/
  stage : PassStage
  /-- The changes before the capture. -/
  before : List Mutation
  /-- The changes between capture and commit. -/
  during : List Mutation
  /-- The changes behind the commit. -/
  behind : List Mutation
deriving DecidableEq

/-- What comes next: a change, or the next step of the pass. Each has the store to itself. -/
inductive PassEvent where
  /-- A change. -/
  | change (m : Mutation)
  /-- A step of the pass. -/
  | advance

namespace PassRun

/-- A pass that has not begun. -/
def start (s : LogStore) : PassRun := ⟨s, .ready, [], [], []⟩

/-- The changes that succeeded. -/
def acknowledged (r : PassRun) : List Mutation := r.before ++ r.during ++ r.behind

/-- Note a change that succeeded. -/
def acknowledge (m : Mutation) (r : PassRun) : PassRun :=
  match r.stage with
  | .ready => { r with before := r.before ++ [m] }
  | .captured _ => { r with during := r.during ++ [m] }
  | .committed _ | .returned _ | .failed _ => { r with behind := r.behind ++ [m] }

/-- A change, whatever the pass is at. -/
def change (m : Mutation) (r : PassRun) : PassRun :=
  match LogStore.logThenApply m r.store with
  | (.ok (), s) => acknowledge m { r with store := s }
  | (.error _, s) => { r with store := s }

/-- The next step of the pass: capture, commit to memory, or the checkpoint if the commit counted
anything. -/
def advance (name : String) (filter : Option PureFilter) (r : PassRun) : PassRun :=
  match r.stage with
  | .ready =>
    match Store.capture name r.store with
    | (.ok cs, s) => { r with store := s, stage := .captured cs }
    | (.error e, s) => { r with store := s, stage := .failed e }
  | .captured cs =>
    match PureFilter.decisions filter cs with
    | .error e => { r with stage := .failed e }
    | .ok ds =>
      match LogStore.onMemory (MemoryStore.commit name ds) r.store with
      | (.ok stats, s) => { r with store := s, stage := .committed stats }
      | (.error e, s) => { r with store := s, stage := .failed e }
  | .committed stats =>
    if stats.changes > 0 then
      match LogStore.checkpoint r.store with
      | (.ok (), s) => { r with store := s, stage := .returned stats }
      | (.error e, s) => { r with store := s, stage := .failed (.access .accessingStore e) }
    else { r with stage := .returned stats }
  | .returned _ | .failed _ => r

/-- One event. -/
def step (name : String) (filter : Option PureFilter) (r : PassRun) : PassEvent → PassRun
  | .change m => r.change m
  | .advance => r.advance name filter

/-- Events in turn. -/
def run (name : String) (filter : Option PureFilter) : List PassEvent → PassRun → PassRun
  | [], r => r
  | event :: events, r => run name filter events (r.step name filter event)

/-- With nothing in between, the steps make up the pass of the store. -/
theorem compact_eq_advance {ω : Type} (name : String) (filter : Option PureFilter) (s : LogStore)
    (w : ω) :
    let r := run name filter [.advance, .advance, .advance] (start s)
    r.stage = .ofResult (compact name (filter.map PureFilter.toFilter) (s, w)).1 ∧
      r.store = (compact name (filter.map PureFilter.toFilter) (s, w)).2.1 := by
  intro r
  -- the three steps are followed to where the pass as a whole stops
  cases hp : s.memory.partition name with
  | error e =>
    have hcapture := LogStore.capture_run_of_error hp
    have hrun : r = ⟨s, .failed (.access .accessingStore e), [], [], []⟩ := by
      simp only [r, run, step, advance, start, hcapture]
    rw [compact_of_capture_error hcapture, hrun]
    exact ⟨rfl, rfl⟩
  | ok p =>
    have hcapture := LogStore.capture_run hp
    have hdecide := PureFilter.decideAll_eq filter p.captured (s, w)
    cases hds : PureFilter.decisions filter p.captured with
    | error e =>
      rw [hds] at hdecide
      have hrun : r = ⟨s, .failed e, [], [], []⟩ := by
        simp only [r, run, step, advance, start, hcapture, hds]
      rw [compact_of_decideAll_error hcapture hdecide, hrun]
      exact ⟨rfl, rfl⟩
    | ok ds =>
      rw [hds] at hdecide
      have hfirst := LogStore.commit_memory_run hp ds
      have hrun : r = advance name filter
          ⟨s.committed name p ds,
            .committed (MemoryStore.commitDecisions ds p (.visited ds.length)).2, [], [], []⟩ := by
        simp only [r, run, step, advance, start, hcapture, hds, LogStore.commit_memory_run hp]
      have hcommit : Store.commit name ds s = LogStore.commit name ds s := rfl
      rw [compact_of_decideAll hcapture hdecide, hrun, hcommit, LogStore.commit_run hp]
      simp only [advance]
      generalize (MemoryStore.commitDecisions ds p (.visited ds.length)).2 = stats
      -- a checkpoint is only written where a pass changed something
      by_cases hmore : stats.changes > 0
      · rw [if_pos hmore, if_pos hmore]
        rcases LogStore.checkpoint (s.committed name p ds) with ⟨e | _, s'⟩ <;> exact ⟨rfl, rfl⟩
      · rw [if_neg hmore, if_neg hmore]
        exact ⟨rfl, rfl⟩

/-! ### What log and memory are worth -/

variable {name : String} {filter : Option PureFilter} {s : LogStore} {c : Contents} {n : Nat}
  {r : PassRun}

/-- Memory holds what the pass makes of the keys that were left alone since its capture, and on top
what changed behind its commit. -/
def Filtered (name : String) (filter : Option PureFilter) (start : Contents) (r : PassRun) : Prop :=
  ∃ c, Mutation.effectAll (r.before ++ r.during) start = .ok c ∧
    Mutation.effectAll r.behind (c.passExcept name filter r.during)
      = .ok r.store.memory.contents

/-- What log and memory are worth at each stage, where `c` is what the changes alone would lead to. -/
def AtStage (name : String) (filter : Option PureFilter) (start c : Contents) (r : PassRun) : Prop :=
  match r.stage with
  | .ready =>
    r.during = [] ∧ r.behind = [] ∧ r.store.memory.contents = c ∧
      ReplaysTo r.store.config.maxEntrySize r.store.file c
  | .captured cs =>
    r.behind = [] ∧ r.store.memory.contents = c ∧
      ReplaysTo r.store.config.maxEntrySize r.store.file c ∧
      ∃ u p, u.Sound ∧ MemoryStore.partition name u = .ok p ∧ cs = p.captured ∧
        Mutation.applyAll r.during u = .ok r.store.memory
  | .committed stats =>
    Filtered name filter start r ∧ ReplaysTo r.store.config.maxEntrySize r.store.file c ∧
      (stats.changes = 0 → r.store.memory.contents = c)
  | .returned _ =>
    Filtered name filter start r ∧
      ReplaysTo r.store.config.maxEntrySize r.store.file r.store.memory.contents
  | .failed _ => ReplaysTo r.store.config.maxEntrySize r.store.file c

/-- The invariant of a pass over the store `start`. -/
structure Tells (name : String) (filter : Option PureFilter) (start : LogStore) (n : Nat)
    (c : Contents) (r : PassRun) : Prop where
  /-- What the changes alone would lead to. -/
  plain : Mutation.effectAll r.acknowledged start.memory.contents = .ok c
  /-- The pass leaves the partitions alone, so the changes would succeed without it. -/
  partitions : r.store.memory.contents.operator = c.operator
  /-- The store is open. -/
  opened : r.store.memory.closed = false
  /-- Its contents satisfy the invariant of memory stores. -/
  sound : r.store.memory.Sound
  /-- The numbers of log and checkpoint. -/
  room : r.store.Room n
  /-- The settings stay. -/
  config : r.store.config = start.config
  /-- What log and memory are worth. -/
  stage : r.AtStage name filter start.memory.contents c

theorem tells_start (hs : s.InStep) (hroom : s.Room n) :
    (start s).Tells name filter s n s.memory.contents :=
  ⟨rfl, rfl, hs.opened, hs.sound, hroom, rfl, rfl, rfl, rfl, hs.replays⟩

/-- What is noted of a change comes behind what was noted before. -/
theorem acknowledged_acknowledge {start : Contents} (h : r.AtStage name filter start c)
    (m : Mutation) (s' : LogStore) :
    (acknowledge m { r with store := s' }).acknowledged = r.acknowledged ++ [m] := by
  obtain ⟨store, stage, before, during, behind⟩ := r
  cases stage with
  | ready =>
    obtain ⟨hduring, hbehind, -, -⟩ := h
    obtain rfl : during = [] := hduring
    obtain rfl : behind = [] := hbehind
    simp [acknowledge, acknowledged]
  | captured cs =>
    obtain ⟨hbehind, -, -, -⟩ := h
    obtain rfl : behind = [] := hbehind
    simp [acknowledge, acknowledged]
  | committed stats => simp [acknowledge, acknowledged]
  | returned stats => simp [acknowledge, acknowledged]
  | failed e => simp [acknowledge, acknowledged]

/-- A change that succeeds counts once, in the log and in memory. -/
theorem AtStage.acknowledge {start c' : Contents} (h : r.AtStage name filter start c) {m : Mutation}
    {s' : LogStore} (hlive : m.effect r.store.memory.contents = .ok s'.memory.contents)
    (hplain : m.effect c = .ok c') (happly : m.apply r.store.memory = (.ok (), s'.memory))
    (hconcat : ∀ d d', ReplaysTo r.store.config.maxEntrySize r.store.file d → m.effect d = .ok d' →
      ReplaysTo s'.config.maxEntrySize s'.file d') :
    (PassRun.acknowledge m { r with store := s' }).AtStage name filter start c' := by
  obtain ⟨store, stage, before, during, behind⟩ := r
  -- where memory holds what the changes alone lead to, it goes on to do so
  have hsame : store.memory.contents = c → s'.memory.contents = c' := fun heq => by
    rw [show store.memory.contents = c from heq, hplain] at hlive
    exact (Except.ok.inj hlive).symm
  have hfiltered : Filtered name filter start ⟨store, stage, before, during, behind⟩ →
      ∀ stage', Filtered name filter start ⟨s', stage', before, during, behind ++ [m]⟩ := by
    rintro ⟨d, hbefore, hbehind⟩ stage'
    refine ⟨d, hbefore, ?_⟩
    rw [Mutation.effectAll_append hbehind]
    simp only [Mutation.effectAll, hlive]
  cases stage with
  | ready =>
    obtain ⟨hduring, hbehind, heq, hreplays⟩ := h
    exact ⟨hduring, hbehind, hsame heq, hconcat _ _ hreplays hplain⟩
  | captured cs =>
    obtain ⟨hbehind, heq, hreplays, u, p, hu, hp, hcs, hall⟩ := h
    refine ⟨hbehind, hsame heq, hconcat _ _ hreplays hplain, u, p, hu, hp, hcs, ?_⟩
    show Mutation.applyAll (during ++ [m]) u = .ok s'.memory
    rw [Mutation.applyAll_append hall]
    simp only [Mutation.applyAll, happly]
  | committed stats =>
    obtain ⟨hpass, hreplays, hzero⟩ := h
    exact ⟨hfiltered hpass _, hconcat _ _ hreplays hplain, fun hstats => hsame (hzero hstats)⟩
  | returned stats =>
    obtain ⟨hpass, hreplays⟩ := h
    exact ⟨hfiltered hpass _, hconcat _ _ hreplays hlive⟩
  | failed e => exact hconcat _ _ h hplain

/-- A change keeps the invariant, whatever the pass is at. -/
theorem Tells.change (h : r.Tells name filter s n c) (hn : n < 0x10000000000000000)
    (m : Mutation) : ∃ c', (r.change m).Tells name filter s (n + 1) c' := by
  rcases LogStore.change_outcome h.opened h.sound h.room hn m with
    ⟨e, hrun⟩ | ⟨s', hrun, happly, hconfig, hopened, hsound, hroom, hconcat⟩
  · rw [PassRun.change, hrun]
    exact ⟨c, { h with room := h.room.mono (Nat.le_succ n) }⟩
  · rw [PassRun.change, hrun]
    obtain ⟨hlive, -⟩ := Mutation.effect_of_apply h.opened happly
    -- the change would succeed without the pass, because that leaves the partitions alone
    obtain ⟨c', hplain, hoperator⟩ := Mutation.effect_of_operator hlive h.partitions.symm
    have hstage := h.stage.acknowledge hlive hplain happly (by rw [hconfig]; exact hconcat)
    have hstore : (acknowledge m { r with store := s' }).store = s' := by
      unfold acknowledge
      split <;> rfl
    refine ⟨c', ?_, ?_, ?_, ?_, ?_, ?_, hstage⟩
    · rw [acknowledged_acknowledge h.stage, Mutation.effectAll_append h.plain]
      simp only [Mutation.effectAll, hplain]
    · rw [hstore, hoperator]
    · rwa [hstore]
    · rwa [hstore]
    · rwa [hstore]
    · rw [hstore, hconfig, h.config]

/-- The capture is of what memory holds. -/
theorem Tells.advance_ready (h : r.Tells name filter s n c) (hstage : r.stage = .ready) :
    (r.advance name filter).Tells name filter s n c := by
  have hat := h.stage
  obtain ⟨store, stage, before, during, behind⟩ := r
  obtain rfl : stage = .ready := hstage
  obtain ⟨hduring, hbehind, hlive, hreplays⟩ := hat
  obtain rfl : during = [] := hduring
  cases hp : store.memory.partition name with
  | error e =>
    simp only [advance, LogStore.capture_run_of_error hp]
    exact { h with stage := hreplays }
  | ok p =>
    simp only [advance, LogStore.capture_run hp]
    exact { h with
      stage := ⟨hbehind, hlive, hreplays, store.memory, p, h.sound, hp, rfl, rfl⟩ }

/-- The commit filters the keys that were left alone since the capture, and leaves the log as it is. -/
theorem Tells.advance_captured (h : r.Tells name filter s n c) {cs : List Captured}
    (hstage : r.stage = .captured cs) : (r.advance name filter).Tells name filter s n c := by
  have hat := h.stage
  obtain ⟨store, stage, before, during, behind⟩ := r
  obtain rfl : stage = .captured cs := hstage
  obtain ⟨hbehind, hlive, hreplays, u, p, hu, hp, rfl, hall⟩ := hat
  obtain rfl : behind = [] := hbehind
  obtain rfl : store.memory.contents = c := hlive
  obtain ⟨q, hq, -⟩ := Mutation.partition_applyAll hp hall
  -- a filter that fails leaves log and memory as they are
  cases hds : PureFilter.decisions filter p.captured with
  | error e =>
    simp only [advance, hds]
    exact { h with stage := hreplays }
  -- memory is settled now, and the log still tells what the calls made of it
  | ok ds =>
    have hcaptured := PureFilter.captured_of_decisions hds
    have hcontents := MemoryStore.contents_commit_amid hu hp hall hq hds (.visited ds.length)
    have hplain := h.plain
    rw [acknowledged, List.append_nil] at hplain
    simp only [advance, hds, LogStore.commit_memory_run hq]
    have hweight := LogStore.weight_committed_le hq ds
    have hsound := h.sound.commit name ds
    rw [MemoryStore.commit_run hq] at hsound
    refine { h with
      partitions := (congrArg Contents.operator hcontents :)
      sound := hsound
      room := ⟨h.room.next, Nat.lt_of_le_of_lt hweight h.room.weight⟩
      stage := ⟨⟨_, hplain, congrArg Except.ok hcontents.symm⟩, hreplays, ?_⟩ }
    intro hzero
    exact MemoryStore.contents_commit_of_no_changes hu hp hall hq hcaptured hzero

/-- The checkpoint puts into the log what memory holds; where there is none, the log tells that
already. -/
theorem Tells.advance_committed (h : r.Tells name filter s n c) (hn : n ≤ 0x10000000000000000)
    {stats : CompactionStats} (hstage : r.stage = .committed stats) :
    (r.advance name filter).Tells name filter s n c := by
  have hat := h.stage
  obtain ⟨store, stage, before, during, behind⟩ := r
  obtain rfl : stage = .committed stats := hstage
  obtain ⟨hfiltered, hreplays, hzero⟩ := hat
  by_cases hmore : stats.changes > 0
  · rcases LogStore.checkpoint_outcome h.opened h.sound with
      ⟨e, hrun⟩ | ⟨s', hrun, hdurable, hmemory, hconfig⟩
    · simp only [advance, if_pos hmore, hrun]
      refine { h with room := ⟨h.room.next, h.room.weight⟩, stage := ?_ }
      show ReplaysTo store.config.maxEntrySize store.unfinished.file c
      have hfile : store.unfinished.file = store.file := LogStore.file_flush store
      rwa [hfile]
    · simp only [advance, if_pos hmore, hrun]
      -- a checkpoint has an entry per partition and key
      have himage : store.memory.image.length < n :=
        Nat.lt_of_le_of_lt (MemoryStore.length_image_le store.memory) h.room.weight
      have hreplays' := hdurable.replaysTo (Nat.lt_of_lt_of_le himage hn)
      refine ⟨h.plain, ?_, hdurable.opened, hdurable.sound, ⟨?_, ?_⟩, hconfig.trans h.config,
        ?_, hreplays'⟩
      · rw [hmemory]
        exact h.partitions
      · rw [hdurable.next]
        exact himage
      · rw [hmemory]
        exact h.room.weight
      · show Filtered name filter s.memory.contents ⟨s', _, before, during, behind⟩
        unfold Filtered
        rw [hmemory]
        exact hfiltered
  · simp only [advance, if_neg hmore]
    have hlive := hzero (Nat.eq_zero_of_not_pos hmore)
    obtain rfl : store.memory.contents = c := hlive
    exact { h with stage := ⟨hfiltered, hreplays⟩ }

/-- A step of the pass changes nothing of what the changes lead to. -/
theorem Tells.advance (h : r.Tells name filter s n c) (hn : n ≤ 0x10000000000000000) :
    (r.advance name filter).Tells name filter s n c := by
  cases hstage : r.stage with
  | ready => exact h.advance_ready hstage
  | captured cs => exact h.advance_captured hstage
  | committed stats => exact h.advance_committed hn hstage
  | returned stats =>
    rw [PassRun.advance, hstage]
    exact h
  | failed e =>
    rw [PassRun.advance, hstage]
    exact h

/-- Every event keeps the invariant, and needs one number more at most. -/
theorem Tells.step (h : r.Tells name filter s n c) (hn : n < 0x10000000000000000)
    (event : PassEvent) : ∃ c', (r.step name filter event).Tells name filter s (n + 1) c' := by
  cases event with
  | change m => exact h.change hn m
  | advance =>
    have hnext := h.advance (Nat.le_of_lt hn)
    exact ⟨c, { hnext with room := hnext.room.mono (Nat.le_succ n) }⟩

/-- So does every sequence of events. -/
theorem Tells.run (h : r.Tells name filter s n c) {events : List PassEvent}
    (hn : n + events.length ≤ 0x10000000000000000) :
    ∃ c', (PassRun.run name filter events r).Tells name filter s (n + events.length) c' := by
  induction events generalizing r n c with
  | nil => exact ⟨c, h⟩
  | cons event events ih =>
    rw [List.length_cons] at hn
    obtain ⟨c₁, hstep⟩ := h.step (by omega) event
    obtain ⟨c', hrun⟩ := ih hstep (by omega)
    rw [List.length_cons, Nat.add_comm events.length, ← Nat.add_assoc]
    exact ⟨c', hrun⟩

end PassRun

/-- **A pass amid changes.** Over a store whose log is worth its contents a pass runs with a pure
filter, and changes come before, between and after its steps. At every point, the changes that
succeeded so far would succeed without the pass. Unless the pass has returned without an error, the
log is worth what these changes alone lead to, and so is memory before the commit. Once it has so
returned, the log is worth what memory holds: what the pass makes of the keys that were left alone
between its capture and its commit, and then the changes behind the commit. -/
theorem LogStore.InStep.pass_amid_changes {s : LogStore} (hs : s.InStep) (name : String)
    (filter : Option PureFilter) (events : List PassEvent)
    (hroom : max s.nextSeq (s.memory.weight + 1) + events.length ≤ 0x10000000000000000) :
    let r := PassRun.run name filter events (.start s)
    ∃ memory, Mutation.applyAll r.acknowledged s.memory = .ok memory ∧
      match r.stage with
      | .ready | .captured _ =>
        ReplaysTo s.config.maxEntrySize r.store.file memory.contents ∧
          r.store.memory.contents = memory.contents
      | .committed _ =>
        ReplaysTo s.config.maxEntrySize r.store.file memory.contents ∧
          r.Filtered name filter s.memory.contents
      | .failed _ => ReplaysTo s.config.maxEntrySize r.store.file memory.contents
      | .returned _ =>
        ReplaysTo s.config.maxEntrySize r.store.file r.store.memory.contents ∧
          r.Filtered name filter s.memory.contents := by
  intro r
  -- the bound leaves room for every event
  have hstart : s.Room (max s.nextSeq (s.memory.weight + 1)) :=
    ⟨Nat.le_max_left .., Nat.lt_of_succ_le (Nat.le_max_right ..)⟩
  have htells : (PassRun.start s).Tells name filter s _ s.memory.contents :=
    PassRun.tells_start hs hstart
  obtain ⟨c, h⟩ := htells.run hroom
  obtain ⟨memory, hall, rfl, -⟩ := Mutation.applyAll_of_effectAll hs.opened h.plain
  refine ⟨memory, hall, ?_⟩
  have hat := h.stage
  rw [← h.config]
  change r.AtStage name filter s.memory.contents memory.contents at hat
  unfold PassRun.AtStage at hat
  -- what log and memory tell depends on how far the pass has come
  rcases hstage : r.stage with _ | cs | stats | stats | e
  all_goals simp only [hstage] at hat ⊢
  · exact ⟨hat.2.2.2, hat.2.2.1⟩
  · exact ⟨hat.2.2.1, hat.2.1⟩
  · exact ⟨hat.2.1, hat.1⟩
  · exact ⟨hat.2, hat.1⟩
  · exact hat

/-- A pass that removes everything, with one key written again before its commit, and another one
before its checkpoint. -/
theorem pass_spares_key_written_meanwhile :
    let config : StoreConfig := ⟨"state", 2, true, 64⟩
    let s := LogStore.onFile config logHeader MemoryStore.empty 0 false
    let removal : PureFilter := ⟨"removal", fun _ => .ok none⟩
    let events : List PassEvent :=
      [.change (.create "p" none), .change (.put "p" [1] [10]), .change (.put "p" [2] [20]),
        .advance, .change (.put "p" [1] [11]), .advance, .change (.put "p" [3] [30]), .advance]
    s.InStep ∧ max s.nextSeq (s.memory.weight + 1) + events.length ≤ 0x10000000000000000 ∧
      ∃ r v, PassRun.run "p" (some removal) events (.start s) = r ∧
        r.stage = .returned ⟨2, 0, 1, 0, 1⟩ ∧
        recover config.maxEntrySize r.store.file = .ok v ∧
        v.memory.value? "p" [1] = some [11] ∧ v.memory.value? "p" [2] = none ∧
        v.memory.value? "p" [3] = some [30] := by
  intro config s removal events
  have hreached : LogStore.Reached config 0 s := .opened rfl
  have hs : s.InStep := hreached.inStep rfl (by decide)
  have hroom : max s.nextSeq (s.memory.weight + 1) + events.length ≤ 0x10000000000000000 := by
    decide
  have hpass := hs.pass_amid_changes "p" (some removal) events hroom
  have hstage : (PassRun.run "p" (some removal) events (.start s)).stage
      = .returned ⟨2, 0, 1, 0, 1⟩ := by
    decide +kernel
  have hlive : ∀ entry ∈ [([1], some [11]), ([2], none), ([3], some [30])],
      (PassRun.run "p" (some removal) events (.start s)).store.memory.value? "p" entry.1
        = entry.2 := by
    decide +kernel
  generalize PassRun.run "p" (some removal) events (.start s) = r at hpass hstage hlive ⊢
  obtain ⟨memory, -, hat⟩ := hpass
  simp only [hstage] at hat
  obtain ⟨⟨v, hrecover, -, hcontents⟩, -⟩ := hat
  have hvalue : ∀ key, v.memory.value? "p" key = r.store.memory.value? "p" key :=
    congrFun (congrFun (congrArg Contents.value hcontents) "p")
  simp only [List.forall_mem_cons, ← hvalue] at hlive
  exact ⟨hs, hroom, r, v, rfl, hstage, hrecover, hlive.1, hlive.2.1, hlive.2.2.1⟩

end AppendLists
