import AppendLists.Proofs.Log.Durable

namespace AppendLists

/-!
# Passes that fail

A pass on a log store changes memory first and writes its checkpoint afterwards. When the pass
fails, the log is worth what it was worth before. Memory is not, if the pass came as far as its
checkpoint and had changed a value: then the store answers with the new values until it is shut, and
with the old ones once it is opened again.

* `LogStore.Reached`: the stores that can be reached, `Reached.within`;
* `LogStore.AnswersLike`: two stores answer alike;
* `Durable.answersLike_committed_iff`: when the memory step of a pass goes unnoticed;
* `LogStore.Reached.failed_pass`: what a failed pass leaves, live and on disk.
-/

namespace LogStore

/-! ### Stores that can be reached -/

/-- The stores that `n` steps lead to from an empty directory. A pass is a step if it succeeds. -/
inductive Reached (config : StoreConfig) : Nat → LogStore → Prop where
  /-- The new store. -/
  | opened {s : LogStore} (hopen : (openVolume config (some .empty)).1 = .ok s) : Reached config 0 s
  /-- A change that succeeds or fails. -/
  | change {n : Nat} {s : LogStore} (h : Reached config n s) (m : Mutation) :
      Reached config (n + 1) (logThenApply m s).2
  /-- A synchronization. -/
  | sync {n : Nat} {s : LogStore} (h : Reached config n s) : Reached config (n + 1) s.sync
  /-- A checkpoint that succeeds or fails. -/
  | checkpoint {n : Nat} {s : LogStore} (h : Reached config n s) :
      Reached config (n + 1) (LogStore.checkpoint s).2
  /-- A pass that succeeds. -/
  | compact {τ : Type} {n : Nat} {s s' : LogStore} {w w' : τ} {stats : CompactionStats}
      (h : Reached config n s) (name : String) (filter : Option (Filter τ))
      (hrun : AppendLists.compact name (filter.map Filter.beside) (s, w) = (.ok stats, s', w')) :
      Reached config (n + 1) s'
  /-- A restart. -/
  | restart {n : Nat} {s s' : LogStore} (h : Reached config n s)
      (hopen : (openVolume config (some s.shut)).1 = .ok s') : Reached config (n + 1) s'

variable {config : StoreConfig} {s s' : LogStore} {ms : List Mutation} {name : String} {n : Nat}
  {τ : Type}

/-- All that a pass can come to before its commit. -/
theorem compact_outcome (s : LogStore) (name : String) (filter : Option (Filter τ)) (w : τ) :
    (∃ e w', AppendLists.compact name (filter.map Filter.beside) (s, w) = (.error e, s, w') ∧
        AppendLists.compact name (filter.map Filter.beside) (s.memory, w)
          = (.error e, s.memory, w')) ∨
      ∃ p ds w', s.memory.partition name = .ok p ∧ ds.map (·.captured) = p.captured ∧
        AppendLists.compact name (filter.map Filter.beside) (s, w)
          = ((commit name ds s).1, (commit name ds s).2, w') ∧
        AppendLists.compact name (filter.map Filter.beside) (s.memory, w)
          = (.ok (MemoryStore.commitDecisions ds p (.visited ds.length)).2,
              (s.committed name p ds).memory, w') := by
  cases hp : s.memory.partition name with
  | error e =>
    exact .inl ⟨_, w, compact_of_capture_error (capture_run_of_error hp),
      compact_of_capture_error (MemoryStore.capture_run_of_error hp)⟩
  | ok p =>
    -- the filter does not see the store, so both passes decide alike
    have hlog := decideAll_beside filter p.captured s w
    have hmemory := decideAll_beside filter p.captured s.memory w
    have hcapture : Store.capture name s.memory = (.ok p.captured, s.memory) :=
      MemoryStore.capture_run hp
    rcases hdecide : decideAll filter p.captured w with ⟨e | ds, w'⟩
    · rw [hdecide] at hlog hmemory
      exact .inl ⟨e, w', compact_of_decideAll_error (capture_run hp) hlog,
        compact_of_decideAll_error hcapture hmemory⟩
    · rw [hdecide] at hlog hmemory
      refine .inr ⟨p, ds, w', rfl, captured_of_decideAll hdecide,
        compact_of_decideAll (capture_run hp) hlog, ?_⟩
      rw [compact_of_decideAll hcapture hmemory]
      show ((MemoryStore.commit name ds s.memory).1, (MemoryStore.commit name ds s.memory).2, w')
        = _
      rw [MemoryStore.commit_run hp]
      rfl

/-- The log of a store that can be reached replays to its contents, and has no more changes than
there were steps. -/
theorem Reached.within (hvalid : config.validate = .ok ()) (h : Reached config n s)
    (hn : n < 0x10000000000000000) : ∃ ms, s.Within ms n ∧ s.config = config := by
  -- the bound on the changes is what a reopening needs, so every step has to keep it
  induction h with
  | opened hopen =>
    obtain ⟨s₀, hopen₀, hdurable, hconfig, hmemory⟩ := openVolume_empty hvalid
    obtain rfl := Except.ok.inj (hopen₀.symm.trans hopen)
    exact ⟨[], ⟨hdurable, Nat.le_refl 0, by rw [hmemory]; decide⟩, hconfig⟩
  | @change n s h m ih =>
    obtain ⟨ms, hwithin, hconfig⟩ := ih (by omega)
    rcases hwithin.logThenApply m with ⟨e, hrun⟩ | ⟨s', hrun, hwithin', _, hconfig'⟩
    · rw [hrun]
      exact ⟨ms, hwithin.mono (Nat.le_succ n), hconfig⟩
    · rw [hrun]
      exact ⟨_, hwithin', hconfig'.trans hconfig⟩
  | @sync n s h ih =>
    obtain ⟨ms, hwithin, hconfig⟩ := ih (by omega)
    exact ⟨ms, hwithin.sync.mono (Nat.le_succ n), hconfig⟩
  | @checkpoint n s h ih =>
    obtain ⟨ms, hwithin, hconfig⟩ := ih (by omega)
    rcases hwithin.checkpoint with ⟨e, hrun⟩ | ⟨s', hrun, hwithin', _, hconfig'⟩
    · -- a failed checkpoint leaves a scratch file beside the log, which replays as before
      rw [hrun]
      exact ⟨ms, hwithin.unfinished.mono (Nat.le_succ n), hconfig⟩
    · rw [hrun]
      exact ⟨_, hwithin'.mono (Nat.le_succ n), hconfig'.trans hconfig⟩
  | @compact τ n s s' w w' stats h name filter hrun ih =>
    obtain ⟨ms, hwithin, hconfig⟩ := ih (by omega)
    rcases compact_outcome s name filter w with
      ⟨e, w₁, herror, _⟩ | ⟨p, ds, w₁, hp, hds, hcommit, _⟩
    · rw [herror] at hrun
      cases hrun
    · rw [hcommit] at hrun
      rcases hwithin.commit hp hds with
        ⟨_, hok, hwithin'⟩ | ⟨_, s₁, hok, hwithin', _, hconfig'⟩ | ⟨e, herror⟩
      · simp only [hok, Prod.mk.injEq] at hrun
        obtain ⟨-, rfl, -⟩ := hrun
        exact ⟨ms, hwithin'.mono (Nat.le_succ n), hconfig⟩
      · simp only [hok, Prod.mk.injEq] at hrun
        obtain ⟨-, rfl, -⟩ := hrun
        exact ⟨_, hwithin'.mono (Nat.le_succ n), hconfig'.trans hconfig⟩
      · -- a pass that fails is no step
        rw [herror] at hrun
        cases hrun
  | @restart n s s' h hopen ih =>
    obtain ⟨ms, hwithin, hconfig⟩ := ih (by omega)
    obtain ⟨s₁, hopen₁, hwithin', hconfig', _⟩ :=
      hwithin.reopen (by rw [hconfig, hvalid]) (by omega)
    rw [hconfig] at hopen₁
    obtain rfl := Except.ok.inj (hopen₁.symm.trans hopen)
    exact ⟨ms, hwithin'.mono (Nat.le_succ n), hconfig'.trans hconfig⟩

/-! ### A failed pass -/

/-- The stores answer every read alike. -/
def AnswersLike (s s' : LogStore) : Prop :=
  (∀ name key, (Store.get name key s).1 = (Store.get name key s').1) ∧
    ∀ name, (Store.scan name s).1 = (Store.scan name s').1

theorem answersLike_of_contents (h : s.memory.contents = s'.memory.contents)
    (hc : s.memory.closed = s'.memory.closed) : s.AnswersLike s' :=
  ⟨MemoryStore.get_congr h hc, MemoryStore.scan_congr h hc⟩

/-- Where the partitions merge alike, stores that answer alike have the same contents. -/
theorem answersLike_iff_contents (hs : s.memory.closed = false) (hs' : s'.memory.closed = false)
    (hop : s.memory.contents.operator = s'.memory.contents.operator) :
    s.AnswersLike s' ↔ s.memory.contents = s'.memory.contents := by
  constructor
  · rintro ⟨hget, -⟩
    refine Contents.ext hop ?_
    funext name key
    have hname : (s.memory.partitions.find? name).map Partition.operator
        = (s'.memory.partitions.find? name).map Partition.operator := congrFun hop name
    have hkey : (MemoryStore.get name key s.memory).1 = (MemoryStore.get name key s'.memory).1 :=
      hget name key
    -- a partition of one store has its like in the other, because the ways of merging agree
    cases hp : s.memory.partitions.find? name with
    | none =>
      have hp' : s'.memory.partitions.find? name = none := by
        rw [hp, Option.map_none] at hname
        exact Option.map_eq_none_iff.1 hname.symm
      simp [MemoryStore.contents, MemoryStore.value?, hp, hp']
    | some p =>
      rw [hp, Option.map_some] at hname
      obtain ⟨q, hq, -⟩ := Option.map_eq_some_iff.1 hname.symm
      rw [MemoryStore.get_run (MemoryStore.partition_of_found hs hp),
        MemoryStore.get_run (MemoryStore.partition_of_found hs' hq)] at hkey
      simpa [MemoryStore.contents, MemoryStore.value?, hp, hq] using Except.ok.inj hkey
  · intro hcontents
    exact answersLike_of_contents hcontents (hs.trans hs'.symm)

/-- A store that was shut answers as before when it is opened again. -/
theorem Within.reopen_answersLike (h : s.Within ms n) (hvalid : s.config.validate = .ok ())
    (hn : n < 0x10000000000000000) :
    ∃ s', (openVolume s.config (some s.shut)).1 = .ok s' ∧ s'.AnswersLike s := by
  obtain ⟨s', hopen, hwithin, _, _, hcontents⟩ := h.reopen hvalid hn
  have hclosed := hwithin.durable.opened.trans h.durable.opened.symm
  exact ⟨s', hopen, answersLike_of_contents hcontents hclosed⟩

/-- The memory step of a commit goes unnoticed if and only if it removed and rewrote nothing. -/
theorem Durable.answersLike_committed_iff (h : s.Durable ms) {p : Partition}
    (hp : s.memory.partition name = .ok p) {ds : List Decision}
    (hds : ds.map (·.captured) = p.captured) :
    (s.committed name p ds).AnswersLike s
      ↔ (MemoryStore.commitDecisions ds p (.visited ds.length)).2.removed = 0 ∧
        (MemoryStore.commitDecisions ds p (.visited ds.length)).2.rewritten = 0 := by
  have hpartition := h.sound.of_partition hp
  have hvalues := Partition.value?_commitDecisions_eq_iff hpartition hds (.visited ds.length)
  rw [Partition.unchanged_iff hpartition hds, ← hvalues]
  constructor
  · -- reading the partition key by key tells all of its values
    rintro ⟨hget, -⟩ key
    have hafter : (s.committed name p ds).memory.partition name
        = .ok (MemoryStore.commitDecisions ds p (.visited ds.length)).1 :=
      MemoryStore.partition_of_found h.opened (by simp [committed])
    have hkey : (MemoryStore.get name key (s.committed name p ds).memory).1
        = (MemoryStore.get name key s.memory).1 := hget name key
    rw [MemoryStore.get_run hafter, MemoryStore.get_run hp] at hkey
    exact Except.ok.inj hkey
  · intro hkept
    have hcontents := (MemoryStore.contents_setPartition_eq_iff
      (MemoryStore.partition_eq_ok_iff.1 hp).2
      (MemoryStore.operator_commitDecisions ds p (.visited ds.length))).2 hkept
    exact answersLike_of_contents hcontents rfl

/-- **What a failed pass leaves.** After a pass that failed, the store can be shut and opened again
with the answers from before the pass. While it stays open it has those answers if and only if the
pass failed before its memory step was done, or that step removed and rewrote nothing. -/
theorem Reached.failed_pass (hvalid : config.validate = .ok ()) (h : Reached config n s)
    (hn : n < 0x10000000000000000) {filter : Option (Filter τ)} {w w' : τ} {e : StateError}
    (hfail : AppendLists.compact name (filter.map Filter.beside) (s, w) = (.error e, s', w')) :
    (∃ s'', (openVolume config (some s'.shut)).1 = .ok s'' ∧ s''.AnswersLike s) ∧
      (s'.AnswersLike s ↔ ∀ stats,
        (AppendLists.compact name (filter.map Filter.beside) (s.memory, w)).1 = .ok stats →
          stats.removed = 0 ∧ stats.rewritten = 0) := by
  obtain ⟨ms, hwithin, rfl⟩ := h.within hvalid hn
  rcases compact_outcome s name filter w with
    ⟨e', w₁, hlog, hmemory⟩ | ⟨p, ds, w₁, hp, hds, hlog, hmemory⟩
  · -- the capture or the filter failed, and nothing was changed at all
    rw [hlog] at hfail
    simp only [Prod.mk.injEq] at hfail
    obtain ⟨-, rfl, -⟩ := hfail
    refine ⟨hwithin.reopen_answersLike hvalid hn, ?_⟩
    rw [hmemory]
    constructor
    · intro _ stats hok
      cases hok
    · exact fun _ => answersLike_of_contents rfl rfl
  · rw [hlog] at hfail
    rcases hwithin.commit hp hds with ⟨_, hok, _⟩ | ⟨_, s₁, hok, _⟩ | ⟨e', herror⟩
    · -- the commit would have succeeded
      rw [hok] at hfail
      cases hfail
    · rw [hok] at hfail
      cases hfail
    · -- the checkpoint failed: the log is the old one, but memory is not
      simp only [herror, Prod.mk.injEq] at hfail
      obtain ⟨-, rfl, -⟩ := hfail
      have hshut : (s.committed name p ds).unfinished.shut = s.unfinished.shut := rfl
      refine ⟨?_, ?_⟩
      · rw [hshut]
        exact hwithin.unfinished.reopen_answersLike hvalid hn
      · rw [hmemory]
        have hlive := hwithin.durable.answersLike_committed_iff hp hds
        constructor
        · intro hsame stats hstats
          obtain rfl := Except.ok.inj hstats
          exact hlive.1 hsame
        · exact fun hstats => hlive.2 (hstats _ rfl)

/-- Two operands that fit their entries and whose joined value does not: a pass that removes the
other key fails, and the key is gone until the store is opened again. -/
theorem failed_pass_removes_key :
    let config : StoreConfig := ⟨"state", 2, true, 40⟩
    let operand : Bytes := List.replicate 14 0x61
    let changes : List Mutation :=
      [.create "p" (some (.stringAppend 0x2C)), .put "p" [1] [7], .merge "p" [2] operand,
        .merge "p" [2] operand]
    let removal : Filter Unit :=
      .ofFunction "removal" fun value => .ok (if value = some [7] then none else value)
    let s : LogStore := changes.foldl (fun s m => (logThenApply m s).2)
      (onFile config logHeader MemoryStore.empty 0 false)
    config.validate = .ok () ∧ Reached config 4 s ∧
      ∃ s' e, AppendLists.compact "p" (some removal.beside) (s, ()) = (.error e, s', ()) ∧
        ¬ s'.AnswersLike s ∧
        ∃ s'', (openVolume config (some s'.shut)).1 = .ok s'' ∧ s''.AnswersLike s := by
  intro config operand changes removal s
  have hvalid : config.validate = .ok () := rfl
  have hs : Reached config 4 s := ((((Reached.opened rfl).change _).change _).change _).change _
  have hremoved : (AppendLists.compact "p" (some removal.beside) (s.memory, ())).1.toOption
      = some ⟨2, 0, 1, 2, 0⟩ := by decide +kernel
  have herror : (AppendLists.compact "p" (some removal.beside) (s, ())).1.isOk = false := by
    decide +kernel
  rcases hrun : AppendLists.compact "p" ((some removal).map Filter.beside) (s, ())
    with ⟨e | stats, s', ⟨⟩⟩
  · obtain ⟨hreopen, hlive⟩ := hs.failed_pass hvalid (by decide) hrun
    refine ⟨hvalid, hs, s', e, hrun, ?_, hreopen⟩
    intro hsame
    have hnone := hlive.1 hsame
    rcases hmemory : (AppendLists.compact "p" (some removal.beside) (s.memory, ())).1 with e | stats
    · rw [hmemory] at hremoved
      cases hremoved
    · rw [hmemory] at hremoved
      obtain rfl : stats = _ := Option.some.inj hremoved
      cases (hnone _ hmemory).1
  · rw [Option.map_some] at hrun
    rw [hrun] at herror
    cases herror

end LogStore

end AppendLists
