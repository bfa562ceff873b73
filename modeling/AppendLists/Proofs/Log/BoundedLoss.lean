import AppendLists.Proofs.Log.Crash

namespace AppendLists

/-!
# What a crash costs

What is on disk survives a crash as far as the last synchronization reaches, and of what was written
after it any beginning may survive. The store synchronizes before too many changes have gathered, so
a crash costs fewer of them than the settings allow, and these are the latest.

* `LogCall`, `Ledger`: calls in turn, with the changes that succeeded;
* `synced_logThenApply`, `synced_checkpoint`: how far the last synchronization reaches;
* `LogStore.Covers`: which of the changes it covers, kept by `Ledger.Sound.call` and
  `Ledger.Sound.calls`;
* `openVolume_of_cut`, `Covers.opens`: what opens behind a crash;
* `LogStore.crash_loses_few`: what is lost.
-/

/-! ### Calls and what they acknowledge -/

/-- A call on a log store. -/
inductive LogCall where
  /-- A change. -/
  | change (m : Mutation)
  /-- A synchronization. -/
  | sync
  /-- A checkpoint. -/
  | checkpoint
deriving DecidableEq

/-- A store, with the changes that it acknowledged, in turn. -/
structure Ledger where
  /-- The store. -/
  store : LogStore
  /-- The changes that succeeded. -/
  acknowledged : List Mutation
deriving DecidableEq

namespace Ledger

/-- A call; one that fails acknowledges nothing. -/
def call (l : Ledger) : LogCall → Ledger
  | .change m =>
    match LogStore.logThenApply m l.store with
    | (.ok (), s) => ⟨s, l.acknowledged ++ [m]⟩
    | (.error _, s) => ⟨s, l.acknowledged⟩
  | .sync => { l with store := l.store.sync }
  | .checkpoint => { l with store := (LogStore.checkpoint l.store).2 }

/-- Calls in turn. -/
def calls : List LogCall → Ledger → Ledger
  | [], l => l
  | op :: ops, l => calls ops (l.call op)

end Ledger

namespace LogStore

variable {config : StoreConfig} {s s' : LogStore} {m : Mutation} {v : Volume} {n : Nat}
  {acks base recent : List Mutation}

/-! ### How far a synchronization reaches -/

theorem synced_sync (s : LogStore) : s.sync.synced = s.sync.file.length := by
  rw [file, show s.sync.buffered = [] from rfl, List.append_nil]
  rfl

/-- A change that is logged is synchronized with all before it, or it counts as one more that is not,
and then there is room for others. -/
theorem synced_logThenApply (h : logThenApply m s = (.ok (), s')) :
    (s'.unsynced = 0 ∧ s'.synced = s'.file.length) ∨
      (s'.unsynced = s.unsynced + 1 ∧ s'.unsynced < s.config.syncInterval ∧
        s'.synced = s.synced) := by
  unfold logThenApply at h
  split at h
  · cases h
  · split at h
    · cases h
    · split at h
      · cases h
      · case h_2 s₁ happend =>
        obtain ⟨-, rfl⟩ := Prod.mk.inj h
        unfold append at happend
        split at happend
        · cases happend
        · obtain rfl := Except.ok.inj happend
          -- the counter has reached the interval, or there is room
          split
          · exact .inl ⟨rfl, synced_sync _⟩
          · case isFalse hwait =>
            simp only [not_or, Nat.not_le] at hwait
            exact .inr ⟨rfl, hwait.2, rfl⟩

/-- A checkpoint that succeeds is synchronized. -/
theorem synced_checkpoint (h : checkpoint s = (.ok (), s')) :
    s'.unsynced = 0 ∧ s'.synced = s'.file.length := by
  unfold checkpoint at h
  simp only at h
  split at h
  · cases h
  · obtain ⟨-, rfl⟩ := Prod.mk.inj h
    refine ⟨rfl, ?_⟩
    simp only [file, flush, List.append_nil]

/-! ### What a synchronization covers -/

/-- The log consists of the changes `base`, which the last synchronization covers, and of the
changes `recent`, which are fewer than the settings allow and the last of those acknowledged. Before
them, what was acknowledged leads to the same contents as `base`, in which a checkpoint may have
summed it up. -/
structure Covers (s : LogStore) (acks base recent : List Mutation) (n : Nat) : Prop where
  /-- The log replays to the contents. -/
  within : s.Within (base ++ recent) n
  /-- The last synchronization covers the changes before the recent ones. -/
  covered : ∃ front, Logged s.config.maxEntrySize 0 base front ∧
    (logHeader ++ front).length ≤ s.synced
  /-- The recent ones are counted. -/
  counted : recent.length ≤ s.unsynced
  /-- They are few. -/
  few : s.unsynced < max 1 s.config.syncInterval
  /-- What was acknowledged is in the log. -/
  told : ∃ old, acks = old ++ recent ∧
    Mutation.effectAll old MemoryStore.empty.contents
      = Mutation.effectAll base MemoryStore.empty.contents

/-- After a synchronization every change is covered. -/
theorem covers_of_synced {ms : List Mutation} (h : s.Within ms n) (hunsynced : s.unsynced = 0)
    (hsynced : s.synced = s.file.length)
    (htold : Mutation.effectAll acks MemoryStore.empty.contents
      = Mutation.effectAll ms MemoryStore.empty.contents) : s.Covers acks ms [] n := by
  obtain ⟨log, hfile, hlogged⟩ := h.durable.logged
  change s.file = _ at hfile
  refine ⟨by rwa [List.append_nil], ⟨log, hlogged, ?_⟩, Nat.zero_le _, ?_,
    acks, (List.append_nil acks).symm, htold⟩
  · exact Nat.le_of_eq (by rw [hsynced, hfile])
  · rw [hunsynced]
    exact Nat.lt_of_lt_of_le Nat.zero_lt_one (Nat.le_max_left ..)

namespace Covers

theorem mono {n' : Nat} (h : s.Covers acks base recent n) (hle : n ≤ n') :
    s.Covers acks base recent n' := { h with within := h.within.mono hle }

/-- What was acknowledged leads to the same contents as the log. -/
theorem effectAll_eq (h : s.Covers acks base recent n) :
    Mutation.effectAll acks MemoryStore.empty.contents
      = Mutation.effectAll (base ++ recent) MemoryStore.empty.contents := by
  obtain ⟨old, rfl, htold⟩ := h.told
  rw [Mutation.effectAll_append_eq, htold, ← Mutation.effectAll_append_eq]

/-- A change that succeeds is one more recent change, or synchronizes them all. -/
theorem change (h : s.Covers acks base recent n) (m : Mutation) :
    (∃ e, logThenApply m s = (.error e, s)) ∨
      ∃ s' base' recent', logThenApply m s = (.ok (), s') ∧
        s'.Covers (acks ++ [m]) base' recent' (n + 1) ∧ s'.config = s.config := by
  rcases h.within.logThenApply m with herror | ⟨s', hrun, hwithin, -, hconfig⟩
  · exact .inl herror
  · right
    rcases synced_logThenApply hrun with ⟨hunsynced, hsynced⟩ | ⟨hunsynced, hfew, hsynced⟩
    · refine ⟨s', _, [], hrun, covers_of_synced hwithin hunsynced hsynced ?_, hconfig⟩
      rw [Mutation.effectAll_append_eq, h.effectAll_eq, ← Mutation.effectAll_append_eq]
    · refine ⟨s', base, recent ++ [m], hrun, ⟨by rwa [← List.append_assoc], ?_, ?_, ?_, ?_⟩,
        hconfig⟩
      · rw [hconfig, hsynced]
        exact h.covered
      · rw [hunsynced, List.length_append]
        exact Nat.succ_le_succ h.counted
      · rw [hconfig]
        exact Nat.lt_of_lt_of_le hfew (Nat.le_max_right ..)
      · obtain ⟨old, rfl, htold⟩ := h.told
        exact ⟨old, List.append_assoc .., htold⟩

/-- A synchronization covers all changes. -/
theorem sync (h : s.Covers acks base recent n) : s.sync.Covers acks (base ++ recent) [] n :=
  covers_of_synced h.within.sync rfl (synced_sync s) h.effectAll_eq

/-- A checkpoint that succeeds sums up all changes, and one that fails leaves the log as it is. -/
theorem checkpoint (h : s.Covers acks base recent n) :
    ∃ base' recent', (LogStore.checkpoint s).2.Covers acks base' recent' n ∧
      (LogStore.checkpoint s).2.config = s.config := by
  rcases h.within.checkpoint with ⟨e, hrun⟩ | ⟨s', hrun, hwithin, hmemory, hconfig⟩
  · rw [hrun]
    exact ⟨base, recent, ⟨h.within.unfinished, h.covered, h.counted, h.few, h.told⟩, rfl⟩
  · rw [hrun]
    obtain ⟨hunsynced, hsynced⟩ := synced_checkpoint hrun
    obtain ⟨memory, hall, hcontents⟩ := h.within.durable.replays
    refine ⟨_, [], covers_of_synced hwithin hunsynced hsynced ?_, hconfig⟩
    rw [h.effectAll_eq, s.memory.effectAll_image, ← hcontents]
    exact Mutation.effectAll_of_applyAll rfl hall

/-! ### Crashes -/

/-- The changes of a log that the last synchronization covers, and some first ones of the others, are
found again in whatever a crash leaves of it; `more` stands in the log behind what is acknowledged. -/
theorem opens (h : s.Covers acks base recent n) (hvalid : s.config.validate = .ok ())
    (more : List Mutation) {log : Bytes}
    (hlogged : Logged s.config.maxEntrySize 0 (base ++ (recent ++ more)) log)
    (hseq : (base ++ (recent ++ more)).length < 0x10000000000000000) {memory : MemoryStore}
    (hall : Mutation.applyAll (base ++ (recent ++ more)) MemoryStore.empty = .ok memory)
    {left : Bytes} (hlog : v.log = some left) (hheld : v.held = false)
    (hleft : left <+: logHeader ++ log) (hkeeps : s.synced ≤ left.length) :
    ∃ s' kept lost memory', openVolume s.config (some v) = (.ok s', some s'.volume) ∧
      acks ++ more = kept ++ lost ∧ lost.length ≤ recent.length + more.length ∧
      Mutation.applyAll kept MemoryStore.empty = .ok memory' ∧
      s'.memory.contents = memory'.contents := by
  obtain ⟨front, back, rfl, hfront, hback⟩ := hlogged.split
  obtain ⟨front', hfront', hcovered⟩ := h.covered
  obtain rfl := hfront.unique hfront'
  rw [List.length_append] at hseq
  -- what is left begins with what is covered, and the cut is behind it
  rw [← List.append_assoc] at hleft
  obtain ⟨rest, rfl⟩ := List.prefix_of_prefix_length_le (List.prefix_append ..) hleft
    (Nat.le_trans hcovered hkeeps)
  obtain ⟨done, lost, kept, torn, hdone, rfl, hkept, htorn, -⟩ :=
    hback.cut (by omega) ((List.prefix_append_right_inj _).1 hleft) 0
  have hlength := congrArg List.length hdone
  rw [List.length_append, List.length_append] at hlength
  have hbefore : Logged s.config.maxEntrySize 0 (base ++ done) (front ++ kept) :=
    hfront.append hkept
  rw [hdone, ← List.append_assoc] at hall
  obtain ⟨found, hfound, -⟩ := Mutation.applyAll_of_append hall
  have hfile : v.log = some (logHeader ++ (front ++ kept) ++ torn) := by
    rw [hlog]
    simp only [List.append_assoc]
  rw [List.length_append] at hseq
  obtain ⟨s', hopen, -, hmemory, -, -⟩ := openVolume_of_torn hvalid hfile hheld hbefore
    (by rw [List.length_append]; omega) hfound htorn
  -- before the recent changes, what was acknowledged leads to the same contents
  obtain ⟨old, rfl, htold⟩ := h.told
  have heffect := Mutation.effectAll_of_applyAll rfl hfound
  rw [Mutation.effectAll_append_eq, ← htold, ← Mutation.effectAll_append_eq] at heffect
  obtain ⟨memory', hall', hcontents, -⟩ := Mutation.applyAll_of_effectAll rfl heffect
  refine ⟨s', old ++ done, lost, memory', hopen, ?_, by omega, hall', ?_⟩
  · rw [List.append_assoc, hdone, List.append_assoc]
  · rw [hmemory, hcontents]

/-- A crash between calls costs recent changes at most. -/
theorem crash (h : s.Covers acks base recent n) (hvalid : s.config.validate = .ok ())
    (hn : n < 0x10000000000000000) {left : Bytes} (hlog : v.log = some left)
    (hheld : v.held = false) (hleft : left <+: s.file) (hkeeps : s.synced ≤ left.length) :
    ∃ s' kept lost memory, openVolume s.config (some v) = (.ok s', some s'.volume) ∧
      acks = kept ++ lost ∧ lost.length < max 1 s.config.syncInterval ∧
      Mutation.applyAll kept MemoryStore.empty = .ok memory ∧
      s'.memory.contents = memory.contents := by
  obtain ⟨log, hfile, hlogged⟩ := h.within.durable.logged
  obtain ⟨memory, hall, -⟩ := h.within.durable.replays
  change s.file = _ at hfile
  rw [hfile] at hleft
  have hcount := h.within.count
  have hfew := Nat.lt_of_le_of_lt h.counted h.few
  rw [← List.append_nil recent] at hlogged hall hcount
  obtain ⟨s', kept, lost, memory', hopen, hacks, hlost, hkept, hcontents⟩ :=
    h.opens hvalid [] hlogged (Nat.lt_of_le_of_lt hcount hn) hall hlog hheld hleft hkeeps
  rw [List.append_nil] at hacks
  exact ⟨s', kept, lost, memory', hopen, hacks, Nat.lt_of_le_of_lt hlost hfew, hkept, hcontents⟩

/-- A crash during one more change may also find this change, and has lost nothing then. -/
theorem crash_during (h : s.Covers acks base recent n) (hvalid : s.config.validate = .ok ())
    (hn : n + 1 < 0x10000000000000000) {left : Bytes} (hlog : v.log = some left)
    (hheld : v.held = false) (hleft : left <+: (logThenApply m s).2.file)
    (hkeeps : s.synced ≤ left.length) :
    ∃ s' kept lost memory, openVolume s.config (some v) = (.ok s', some s'.volume) ∧
      (acks = kept ++ lost ∧ lost.length < max 1 s.config.syncInterval ∨ acks ++ [m] = kept) ∧
      Mutation.applyAll kept MemoryStore.empty = .ok memory ∧
      s'.memory.contents = memory.contents := by
  -- a change that fails leaves nothing behind in the log
  rcases h.within.logThenApply m with ⟨e, hrun⟩ | ⟨s₁, hrun, hwithin, -, hconfig⟩
  · rw [hrun] at hleft
    obtain ⟨s', kept, lost, memory, hopen, hacks, hlost, hkept, hcontents⟩ :=
      h.crash hvalid (Nat.lt_of_succ_lt hn) hlog hheld hleft hkeeps
    exact ⟨s', kept, lost, memory, hopen, .inl ⟨hacks, hlost⟩, hkept, hcontents⟩
  · obtain ⟨log, hfile, hlogged⟩ := hwithin.durable.logged
    obtain ⟨memory, hall, -⟩ := hwithin.durable.replays
    have hcount := hwithin.count
    change s₁.file = _ at hfile
    rw [hrun] at hleft
    rw [hfile] at hleft
    rw [hconfig] at hlogged
    rw [List.append_assoc] at hlogged hall hcount
    obtain ⟨s', kept, lost, memory', hopen, hacks, hlost, hkept, hcontents⟩ :=
      h.opens hvalid [m] hlogged (Nat.lt_of_le_of_lt hcount hn) hall hlog hheld hleft hkeeps
    refine ⟨s', kept, lost.dropLast, memory', hopen, ?_, hkept, hcontents⟩
    rcases List.eq_nil_or_concat lost with rfl | ⟨lost, last, rfl⟩
    · -- nothing is lost, so the change that was underway is found as well
      right
      rw [hacks, List.append_nil]
    · -- the last entry that is lost is that of the change that was underway
      rw [List.concat_eq_append, ← List.append_assoc] at hacks
      rw [List.concat_eq_append, List.length_append] at hlost
      rw [List.concat_eq_append, List.dropLast_concat]
      obtain ⟨hacks, -⟩ := List.append_inj' hacks rfl
      have hfew := Nat.lt_of_le_of_lt h.counted h.few
      exact .inl ⟨hacks, Nat.lt_of_le_of_lt (Nat.le_of_succ_le_succ hlost) hfew⟩

end Covers

end LogStore

namespace Ledger

variable {config : StoreConfig} {l : Ledger} {n : Nat}

/-- The store covers what the ledger says it acknowledged. -/
def Sound (config : StoreConfig) (n : Nat) (l : Ledger) : Prop :=
  l.store.config = config ∧ ∃ base recent, l.store.Covers l.acknowledged base recent n

/-- Every call keeps a ledger sound. -/
theorem Sound.call (h : l.Sound config n) (op : LogCall) : (l.call op).Sound config (n + 1) := by
  obtain ⟨hconfig, base, recent, hcovers⟩ := h
  cases op with
  | change m =>
    rcases hcovers.change m with ⟨e, hrun⟩ | ⟨s', base', recent', hrun, hcovers', hconfig'⟩
    · rw [Ledger.call, hrun]
      exact ⟨hconfig, base, recent, hcovers.mono (Nat.le_succ n)⟩
    · rw [Ledger.call, hrun]
      exact ⟨hconfig'.trans hconfig, base', recent', hcovers'⟩
  | sync => exact ⟨hconfig, _, [], hcovers.sync.mono (Nat.le_succ n)⟩
  | checkpoint =>
    obtain ⟨base', recent', hcovers', hconfig'⟩ := hcovers.checkpoint
    exact ⟨hconfig'.trans hconfig, base', recent', hcovers'.mono (Nat.le_succ n)⟩

theorem Sound.calls (h : l.Sound config n) (ops : List LogCall) :
    (Ledger.calls ops l).Sound config (n + ops.length) := by
  induction ops generalizing l n with
  | nil => exact h
  | cons op ops ih =>
    have hrest := ih (h.call op)
    rwa [Nat.add_assoc, Nat.add_comm 1] at hrest

end Ledger

namespace LogStore

variable {config : StoreConfig} {ops : List LogCall}

/-- The ledger of a new store is sound. -/
theorem sound_of_openVolume_empty (hvalid : config.validate = .ok ()) :
    ∃ s, (openVolume config (some .empty)).1 = .ok s ∧ (Ledger.mk s []).Sound config 0 := by
  obtain ⟨s, hopen, hdurable, hconfig, hmemory⟩ := openVolume_empty hvalid
  have hwithin : s.Within [] 0 := ⟨hdurable, Nat.le_refl 0, by rw [hmemory]; decide⟩
  obtain rfl : onFile config logHeader MemoryStore.empty 0 false = s := by
    rw [openVolume, hvalid] at hopen
    exact Except.ok.inj hopen
  exact ⟨_, hopen, hconfig, [], [], covers_of_synced hwithin rfl rfl rfl⟩

/-- **Bounded loss.** A store from an empty directory lives through calls, and crashes; of its log the
bytes that the last synchronization covers are left, and any beginning of the others. The store opens
again as it was after some first ones of the changes that were acknowledged; those that are lost are
fewer than the settings let gather, and none if every change is synchronized. If it crashes during
one more change, this may be found as well, but only if nothing is lost. -/
theorem crash_loses_few (hvalid : config.validate = .ok ())
    (hlength : ops.length + 1 < 0x10000000000000000) :
    ∃ s, (openVolume config (some .empty)).1 = .ok s ∧
      let l := Ledger.calls ops ⟨s, []⟩
      ∀ (v : Volume) (left : Bytes), v.log = some left → v.held = false →
        l.store.synced ≤ left.length →
        (left <+: l.store.file →
          ∃ s' kept lost memory, openVolume config (some v) = (.ok s', some s'.volume) ∧
            l.acknowledged = kept ++ lost ∧ lost.length < max 1 config.syncInterval ∧
            (config.syncInterval ≤ 1 → lost = []) ∧
            Mutation.applyAll kept MemoryStore.empty = .ok memory ∧
            s'.memory.contents = memory.contents) ∧
        ∀ m, left <+: (logThenApply m l.store).2.file →
          ∃ s' kept lost memory, openVolume config (some v) = (.ok s', some s'.volume) ∧
            (l.acknowledged = kept ++ lost ∧ lost.length < max 1 config.syncInterval ∨
              l.acknowledged ++ [m] = kept) ∧
            Mutation.applyAll kept MemoryStore.empty = .ok memory ∧
            s'.memory.contents = memory.contents := by
  obtain ⟨s, hopen, hsound⟩ := sound_of_openVolume_empty hvalid
  refine ⟨s, hopen, ?_⟩
  obtain ⟨hconfig, base, recent, hcovers⟩ := hsound.calls ops
  rw [Nat.zero_add] at hcovers
  -- some changes are on disk for sure, and few came behind them
  intro l v left hlog hheld hkeeps
  change l.store.config = config at hconfig
  rw [← hconfig] at hvalid
  constructor
  · intro hleft
    obtain ⟨s', kept, lost, memory, hopen', hacks, hlost, hkept, hcontents⟩ :=
      hcovers.crash hvalid (Nat.lt_of_succ_lt hlength) hlog hheld hleft hkeeps
    rw [hconfig] at hopen' hlost
    refine ⟨s', kept, lost, memory, hopen', hacks, hlost, ?_, hkept, hcontents⟩
    -- with one change in every synchronization none is left to be lost
    intro heach
    rw [Nat.max_eq_left heach] at hlost
    exact List.eq_nil_of_length_eq_zero (Nat.lt_one_iff.1 hlost)
  · intro m hleft
    have hduring := hcovers.crash_during hvalid hlength hlog hheld hleft hkeeps
    rwa [hconfig] at hduring

/-- A crash behind a checkpoint and two more changes, of which the first is on disk and the second one
in part. -/
theorem crash_behind_checkpoint :
    let config : StoreConfig := ⟨"state", 3, true, 64⟩
    let ops : List LogCall :=
      [.change (.create "p" none), .change (.put "p" [1] [10]), .change (.put "q" [1] [10]),
        .checkpoint, .change (.put "p" [2] [20]), .change (.put "p" [3] [30])]
    config.validate = .ok () ∧ ops.length + 1 < 0x10000000000000000 ∧
      ∃ s, (openVolume config (some .empty)).1 = .ok s ∧
        let l := Ledger.calls ops ⟨s, []⟩
        let left := l.store.file.take (l.store.synced + 30)
        l.store.synced ≤ left.length ∧ left <+: l.store.file ∧
        ∃ s' kept lost, openVolume config (some ⟨some left, true, false, false⟩)
            = (.ok s', some s'.volume) ∧
          l.acknowledged = kept ++ lost ∧ lost.length < 3 ∧
          s'.memory.value? "p" [2] = some [20] ∧ s'.memory.value? "p" [3] = none := by
  intro config ops
  have hvalid : config.validate = .ok () := rfl
  have hlength : ops.length + 1 < 0x10000000000000000 := by decide
  obtain ⟨s, hopen, hcrash⟩ := crash_loses_few hvalid hlength
  refine ⟨hvalid, hlength, s, hopen, ?_⟩
  obtain rfl : onFile config logHeader MemoryStore.empty 0 false = s := Except.ok.inj hopen
  generalize hs : onFile config logHeader MemoryStore.empty 0 false = s at hcrash ⊢
  intro l left
  have hkeeps : l.store.synced ≤ left.length := by
    simp only [left, l, ← hs]
    decide +kernel
  have hleft : left <+: l.store.file := List.take_prefix ..
  have hvalues : (openVolume config (some ⟨some left, true, false, false⟩)).1.toOption.map
      (fun s => (s.memory.value? "p" [2], s.memory.value? "p" [3])) = some (some [20], none) := by
    simp only [left, l, ← hs]
    decide +kernel
  obtain ⟨s', kept, lost, memory, hopen', hacks, hlost, -⟩ :=
    (hcrash ⟨some left, true, false, false⟩ left rfl rfl hkeeps).1 hleft
  rw [hopen'] at hvalues
  obtain ⟨htwo, hthree⟩ := Prod.mk.inj (Option.some.inj hvalues)
  exact ⟨hkeeps, hleft, s', kept, lost, hopen', hacks, hlost, htwo, hthree⟩

end LogStore

end AppendLists
