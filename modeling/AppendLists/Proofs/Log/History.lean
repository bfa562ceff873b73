import AppendLists.Proofs.Log.Crash
import AppendLists.Proofs.Log.Legible

namespace AppendLists

/-!
# Histories with crashes

A store can go on with a log that a crash has cut, and be cut again. What opens on any beginning of a
log that can be read has a log that can be read, so this holds through crashes as it holds through
calls.

* `LogStore.Step`: a call, or a restart on what is left of the log;
* `LogStore.Surviving`: the stores that steps can lead to;
* `Legible.step`, `Surviving.legible`: what one step preserves, and what holds after any of them.
-/

/-- A log without its header is not recovered. -/
theorem length_le_of_recover {limit : Nat} {file : Bytes} {r : Recovered}
    (h : recover limit file = .ok r) : logHeader.length ≤ file.length := by
  obtain ⟨log, rfl⟩ := header_of_recover h
  rw [List.length_append]
  exact Nat.le_add_right ..

namespace LogStore

variable {config : StoreConfig} {s s' : LogStore} {ms : List Mutation} {n : Nat} {v : Volume}

/-- A volume that opens is not held, and its log is recovered. -/
theorem recover_of_openVolume {file : Bytes} (hlog : v.log = some file)
    (hopen : (openVolume config (some v)).1 = .ok s') :
    config.validate = .ok () ∧ v.held = false ∧
      ∃ r, recover config.maxEntrySize file = .ok r ∧
        s' = onFile config (file.take r.validLength) r.memory r.maxSeq v.scratch := by
  unfold openVolume at hopen
  split at hopen
  · cases hopen
  · case h_2 hvalid =>
    simp only [openExisting, hlog] at hopen
    split at hopen
    · cases hopen
    · case isFalse hheld =>
      refine ⟨hvalid, Bool.eq_false_iff.2 hheld, ?_⟩
      split at hopen
      · cases hopen
      · case h_2 r hrecover => exact ⟨r, hrecover, (Except.ok.inj hopen).symm⟩

/-- The header of its log is whole. -/
theorem of_openVolume_eq_ok {file : Bytes} (hlog : v.log = some file)
    (hopen : (openVolume config (some v)).1 = .ok s') :
    v.held = false ∧ logHeader.length ≤ file.length := by
  obtain ⟨-, hheld, r, hrecover, -⟩ := recover_of_openVolume hlog hopen
  exact ⟨hheld, length_le_of_recover hrecover⟩

/-- What a call or a restart makes of a store. -/
inductive Step (config : StoreConfig) : LogStore → LogStore → Prop where
  /-- A change, whether it succeeds or not. -/
  | change (s : LogStore) (m : Mutation) : Step config s (logThenApply m s).2
  /-- A synchronization. -/
  | sync (s : LogStore) : Step config s s.sync
  /-- A checkpoint, whether it succeeds or not. -/
  | checkpoint (s : LogStore) : Step config s (LogStore.checkpoint s).2
  /-- The commit of a pass. -/
  | commit (s : LogStore) (name : String) (ds : List Decision) :
      Step config s (LogStore.commit name ds s).2
  /-- A restart on what is left of the log: all of it if the store was shut, and any beginning of it
  after a crash. -/
  | restart {s s' : LogStore} {v : Volume} {left : Bytes} (hlog : v.log = some left)
      (hleft : left <+: s.file) (hopen : (openVolume config (some v)).1 = .ok s') :
      Step config s s'

/-- The stores that `n` steps lead to from an empty directory. -/
inductive Surviving (config : StoreConfig) : Nat → LogStore → Prop where
  /-- The new store. -/
  | opened {s : LogStore} (hopen : (openVolume config (some .empty)).1 = .ok s) :
      Surviving config 0 s
  /-- A step more. -/
  | step {n : Nat} {s s' : LogStore} (h : Surviving config n s) (hstep : Step config s s') :
      Surviving config (n + 1) s'

/-- What opens on a beginning of a log that can be read has a log that can be read. -/
theorem Legible.restart (h : s.Legible ms n) (hvalid : s.config.validate = .ok ())
    (hn : n < 0x10000000000000000) {left : Bytes} (hlog : v.log = some left)
    (hleft : left <+: s.file) (hopen : (openVolume s.config (some v)).1 = .ok s') :
    ∃ ms', s'.Legible ms' n ∧ s'.config = s.config := by
  obtain ⟨hheld, hheader⟩ := of_openVolume_eq_ok hlog hopen
  have hcount := h.count
  obtain ⟨memory, hall, -⟩ := h.replays
  obtain ⟨log, hfile, hlogged⟩ := h.logged
  change s.file = _ at hfile
  rw [hfile] at hleft
  -- what is left is the log of some of the changes, and a part of an entry
  obtain ⟨left, rfl⟩ := List.prefix_of_prefix_length_le (List.prefix_append ..) hleft hheader
  obtain ⟨kept, rest, log, torn, rfl, rfl, hkept, htorn, -⟩ :=
    hlogged.cut (by omega) ((List.prefix_append_right_inj logHeader).1 hleft) 0
  obtain ⟨memory₁, hall₁, -⟩ := Mutation.applyAll_of_append hall
  rw [List.length_append] at hcount
  rw [← List.append_assoc] at hlog
  obtain ⟨s₁, hopen₁, hconfig, hmemory, -, hverbatim⟩ :=
    openVolume_of_torn hvalid hlog hheld hkept (by omega) hall₁ htorn
  rw [hopen₁] at hopen
  obtain rfl := Except.ok.inj hopen
  have hweight := MemoryStore.weight_applyAll_le hall₁
  have hempty : MemoryStore.empty.weight = 0 := rfl
  have hwithin : s₁.Within kept n := ⟨hverbatim.durable, by omega, by rw [hmemory]; omega⟩
  exact ⟨kept, hwithin.legible, hconfig⟩

/-- A step leaves a log that can be read, with one change more at most. -/
theorem Legible.step (h : s.Legible ms n) (hvalid : s.config.validate = .ok ())
    (hn : n < 0x10000000000000000) (hstep : Step s.config s s') :
    ∃ ms', s'.Legible ms' (n + 1) ∧ s'.config = s.config := by
  cases hstep with
  | change m => exact h.logThenApply m
  | sync => exact ⟨ms, h.sync.mono (Nat.le_succ n), rfl⟩
  | checkpoint =>
    obtain ⟨ms', hlegible, hconfig⟩ := h.checkpoint
    exact ⟨ms', hlegible.mono (Nat.le_succ n), hconfig⟩
  | commit name ds =>
    obtain ⟨ms', hlegible, hconfig⟩ := h.commit name ds
    exact ⟨ms', hlegible.mono (Nat.le_succ n), hconfig⟩
  | restart hlog hleft hopen =>
    obtain ⟨ms', hlegible, hconfig⟩ := h.restart hvalid hn hlog hleft hopen
    exact ⟨ms', hlegible.mono (Nat.le_succ n), hconfig⟩

/-- The log of a store can be read, whatever the store has lived through. -/
theorem Surviving.legible (hvalid : config.validate = .ok ()) (h : Surviving config n s)
    (hn : n < 0x10000000000000000) : ∃ ms, s.Legible ms n ∧ s.config = config := by
  induction h with
  | opened hopen => exact (Attainable.opened hopen).legible hvalid hn
  | @step n s s' h hstep ih =>
    obtain ⟨ms, hlegible, rfl⟩ := ih (by omega)
    exact hlegible.step hvalid (by omega) hstep

end LogStore

end AppendLists
