import AppendLists.Proofs.Log.Boundaries
import AppendLists.Proofs.Log.Durable

namespace AppendLists

/-!
# Crashes

A crash leaves some beginning of the log behind, cut at any byte. As long as the header is there,
the store opens again as it was after some of the changes, namely those whose entries are whole, and
goes on from there as if the others had never been made.

* `LogStore.changeAll`, `LogStore.carriedOut`: changes in turn, and those that succeed;
* `LogStore.file`: the log;
* `LogStore.Verbatim`: the log is that of the very changes that led to the contents, kept by
  `Verbatim.changeAll`;
* `Verbatim.cut`: what is left of the log;
* `LogStore.cut_log_recovers`: what a store finds in it.
-/

namespace LogStore

/-! ### Changes in turn -/

/-- The store after changes in turn; one that is refused leaves no trace. -/
def changeAll : List Mutation → LogStore → LogStore
  | [], s => s
  | m :: ms, s => changeAll ms (logThenApply m s).2

/-- Those of the changes that succeed. -/
def carriedOut : List Mutation → LogStore → List Mutation
  | [], _ => []
  | m :: ms, s =>
    match logThenApply m s with
    | (.ok (), s') => m :: carriedOut ms s'
    | (.error _, s') => carriedOut ms s'

/-- The log, the bytes not flushed yet included. -/
def file (s : LogStore) : Bytes := s.written ++ s.buffered

variable {s s' : LogStore} {m : Mutation} {ms ops : List Mutation} {config : StoreConfig}

/-- A change that is made is carried out in front of the others. -/
theorem carriedOut_of_ok (h : logThenApply m s = (.ok (), s')) (ms : List Mutation) :
    carriedOut (m :: ms) s = m :: carriedOut ms s' := by
  rw [carriedOut, h]

/-- One that fails is not carried out. -/
theorem carriedOut_of_error {e : StorageError} (h : logThenApply m s = (.error e, s'))
    (ms : List Mutation) : carriedOut (m :: ms) s = carriedOut ms s' := by
  rw [carriedOut, h]

/-- No more changes are carried out than are asked for. -/
theorem length_carriedOut_le (ms : List Mutation) (s : LogStore) :
    (carriedOut ms s).length ≤ ms.length := by
  induction ms generalizing s with
  | nil => exact Nat.le_refl 0
  | cons m ms ih =>
    rcases hrun : logThenApply m s with ⟨_ | _, s'⟩
    · rw [carriedOut_of_error hrun]
      exact Nat.le_succ_of_le (ih s')
    · rw [carriedOut_of_ok hrun]
      exact Nat.succ_le_succ (ih s')

/-- The first of the changes that succeed are those of some first changes. -/
theorem exists_prefix_carriedOut {done rest : List Mutation}
    (h : carriedOut ops s = done ++ rest) : ∃ before, before <+: ops ∧ carriedOut before s = done := by
  induction ops generalizing s done with
  | nil =>
    obtain ⟨rfl, -⟩ := List.append_eq_nil_iff.1 h.symm
    exact ⟨[], List.nil_prefix, rfl⟩
  | cons m ops ih =>
    rcases hrun : logThenApply m s with ⟨e | _, s'⟩
    · -- a refused change is carried out as nothing, and the next one succeeds or not
      rw [carriedOut_of_error hrun] at h
      obtain ⟨before, hbefore, hdone⟩ := ih h
      exact ⟨m :: before, (List.prefix_cons_inj m).2 hbefore, by
        rw [carriedOut_of_error hrun, hdone]⟩
    · rw [carriedOut_of_ok hrun] at h
      cases done with
      | nil => exact ⟨[], List.nil_prefix, rfl⟩
      | cons d done =>
        obtain ⟨rfl, hrest⟩ := List.cons.inj h
        obtain ⟨before, hbefore, hdone⟩ := ih hrest
        exact ⟨m :: before, (List.prefix_cons_inj m).2 hbefore, by
          rw [carriedOut_of_ok hrun, hdone]⟩

/-! ### Stores with all of their history in the log -/

/-- The log of a store replays to the store itself, operands, versions and all. -/
structure Verbatim (s : LogStore) (ms : List Mutation) : Prop where
  /-- The log is that of the changes. -/
  durable : s.Durable ms
  /-- The changes lead to what the store holds. -/
  replays : Mutation.applyAll ms MemoryStore.empty = .ok s.memory

/-- A change either leaves no trace or becomes the last one of the log. -/
theorem Verbatim.change (h : s.Verbatim ms) (m : Mutation) :
    (∃ e, logThenApply m s = (.error e, s)) ∨
      ∃ s', logThenApply m s = (.ok (), s') ∧ s'.Verbatim (ms ++ [m]) ∧ s'.config = s.config := by
  rcases logThenApply_outcome h.durable m with herror | ⟨s', hrun, hdurable, happly, hconfig⟩
  · exact .inl herror
  · refine .inr ⟨s', hrun, ⟨hdurable, ?_⟩, hconfig⟩
    rw [Mutation.applyAll_append h.replays]
    simp only [Mutation.applyAll, happly]

/-- Behind the log stand the changes that were carried out. -/
theorem Verbatim.changeAll (h : s.Verbatim ms) (ops : List Mutation) :
    (changeAll ops s).Verbatim (ms ++ carriedOut ops s) ∧
      (LogStore.changeAll ops s).config = s.config := by
  induction ops generalizing s ms with
  | nil => exact ⟨by rwa [carriedOut, List.append_nil], rfl⟩
  | cons m ops ih =>
    rw [LogStore.changeAll]
    rcases h.change m with ⟨e, hrun⟩ | ⟨s', hrun, hverbatim, hconfig⟩
    · rw [carriedOut_of_error hrun, hrun]
      exact ih h
    · obtain ⟨hall, hconfig'⟩ := ih hverbatim
      rw [carriedOut_of_ok hrun, hrun]
      exact ⟨by rwa [List.append_assoc] at hall, hconfig'.trans hconfig⟩

/-- A log that is shut and opened again gives back the memory. -/
theorem Verbatim.reopen (h : s.Verbatim ms) (hvalid : s.config.validate = .ok ())
    (hseq : ms.length < 0x10000000000000000) :
    ∃ s', (openVolume s.config (some s.shut)).1 = .ok s' ∧ s'.memory = s.memory := by
  obtain ⟨s', hopen, _, _, hall, _⟩ := h.durable.reopen hvalid hseq
  exact ⟨s', hopen, Except.ok.inj (hall.symm.trans h.replays)⟩

/-- A file that consists of the log of some changes and of a part of an entry is opened with these
changes made, and the part is cut off. -/
theorem openVolume_of_torn (hvalid : config.validate = .ok ()) {v : Volume} {log torn : Bytes}
    (hfile : v.log = some (logHeader ++ log ++ torn)) (hheld : v.held = false)
    (hlogged : Logged config.maxEntrySize 0 ms log) (hseq : ms.length < 0x10000000000000000)
    {memory : MemoryStore} (happly : Mutation.applyAll ms MemoryStore.empty = .ok memory)
    (htorn : readEntry config.maxEntrySize torn = .finished ∨
      readEntry config.maxEntrySize torn = .short) :
    ∃ s, openVolume config (some v) = (.ok s, some s.volume) ∧ s.config = config ∧
      s.memory = memory ∧ s.written = logHeader ++ log ∧ s.Verbatim ms := by
  have hrecover := recover_append hlogged hseq (Nat.le_refl _) happly torn
  rw [replayFrom_torn htorn] at hrecover
  refine ⟨_, openVolume_of_recover hvalid hfile hheld hrecover, rfl, rfl, List.take_left, ?_, happly⟩
  have hfile' : logHeader ++ log = (logHeader ++ log ++ torn).take (logHeader ++ log).length :=
    List.take_left.symm
  refine ⟨⟨log, ?_, hlogged⟩, rfl, ⟨memory, happly, rfl⟩, ?_, ?_⟩
  · exact (List.append_nil _).trans hfile'.symm
  · exact Mutation.closed_applyAll happly
  · exact Mutation.sound_applyAll MemoryStore.Sound.empty happly

/-- Behind its header, a beginning of the log of a new store is the log that the first of its changes
left, as many of them successful as there are whole entries, with a part of an entry behind it. -/
theorem Verbatim.cut (hnew : s.Verbatim []) (hlength : ops.length < 0x10000000000000000)
    {front : Bytes} (hfront : front <+: (LogStore.changeAll ops s).file)
    (hheader : logHeader.length ≤ front.length) :
    ∃ before kept torn, before <+: ops ∧ front = logHeader ++ kept ++ torn ∧
      (LogStore.changeAll before s).file = logHeader ++ kept ∧
      Logged s.config.maxEntrySize 0 (carriedOut before s) kept ∧
      (readEntry s.config.maxEntrySize torn = .finished ∨
        readEntry s.config.maxEntrySize torn = .short) ∧
      (boundaries s.config.maxEntrySize (LogStore.changeAll ops s).file).countP (· ≤ front.length)
        = (carriedOut before s).length + 1 ∧
      (boundaries s.config.maxEntrySize (LogStore.changeAll ops s).file)[
          (carriedOut before s).length]? = some (logHeader ++ kept).length := by
  obtain ⟨⟨hall, -⟩, hconfig⟩ := hnew.changeAll ops
  obtain ⟨log, hfile, hlogged⟩ := hall.logged
  rw [hconfig, List.nil_append] at hlogged
  change (LogStore.changeAll ops s).file = _ at hfile
  rw [hfile] at hfront ⊢
  obtain ⟨front, rfl⟩ := List.prefix_of_prefix_length_le (List.prefix_append ..) hfront hheader
  have hcount := length_carriedOut_le ops s
  obtain ⟨done, rest, kept, torn, hsplit, rfl, hkept, htorn, hends⟩ :=
    hlogged.cut (by omega) ((List.prefix_append_right_inj logHeader).1 hfront) logHeader.length
  have hdone : done.length ≤ ops.length := by
    rw [hsplit, List.length_append] at hcount
    omega
  -- the whole entries are those of the changes up to some point
  obtain ⟨before, hbefore, rfl⟩ := exists_prefix_carriedOut hsplit
  obtain ⟨⟨hpart, -⟩, hconfig'⟩ := hnew.changeAll before
  obtain ⟨log', hfile', hlogged'⟩ := hpart.logged
  rw [hconfig', List.nil_append] at hlogged'
  obtain rfl := hlogged'.unique hkept
  refine ⟨before, log', torn, hbefore, (List.append_assoc ..).symm, hfile', hkept, htorn, ?_, ?_⟩
  · rw [boundaries_header, List.countP_cons_of_pos (by simp), ← hends, List.length_append]
  · obtain ⟨log₁, log₂, rfl, hlog₁, -⟩ := (hsplit ▸ hlogged).split
    obtain rfl := hlog₁.unique hkept
    rw [← List.append_assoc, hkept.getElem?_boundaries (by omega)]

/-- **A log that was cut recovers to a state that the store was in.** A store from an empty
directory makes changes, of which some may be refused, and what is left of its log ends anywhere
behind the header. The store that opens on it is the one after the first changes, as many of them
successful as there are whole entries left; it cuts the log to the end of the last of these; and
whatever changes it makes next, it is the same when it is shut and opened again. -/
theorem cut_log_recovers (hvalid : config.validate = .ok ())
    (hlength : ops.length < 0x10000000000000000) :
    ∃ s, (openVolume config (some .empty)).1 = .ok s ∧
      ∀ (v : Volume) (front : Bytes), v.log = some front → v.held = false →
        front <+: (changeAll ops s).file → logHeader.length ≤ front.length →
        ∃ s' before, openVolume config (some v) = (.ok s', some s'.volume) ∧ before <+: ops ∧
          (boundaries config.maxEntrySize (changeAll ops s).file).countP (· ≤ front.length)
            = (carriedOut before s).length + 1 ∧
          (boundaries config.maxEntrySize (changeAll ops s).file)[(carriedOut before s).length]?
            = some s'.written.length ∧
          s'.memory = (changeAll before s).memory ∧ s'.written = (changeAll before s).file ∧
          s'.written <+: front ∧
          ∀ ops', ops.length + ops'.length < 0x10000000000000000 →
            ∃ s'', (openVolume config (some (changeAll ops' s').shut)).1 = .ok s'' ∧
              s''.memory = (changeAll ops' s').memory := by
  obtain ⟨s, hopen, hdurable, rfl, hmemory⟩ := openVolume_empty hvalid
  have hnew : s.Verbatim [] := ⟨hdurable, by rw [hmemory]; rfl⟩
  refine ⟨s, hopen, ?_⟩
  -- the cut leaves the entries of some changes whole, and perhaps a part of the next one
  intro v front hlog hheld hfront hheader
  obtain ⟨before, kept, torn, hbefore, rfl, hfile, hkept, htorn, hcount, hend⟩ :=
    hnew.cut hlength hfront hheader
  have hdone : (carriedOut before s).length ≤ ops.length :=
    Nat.le_trans (length_carriedOut_le before s) hbefore.length_le
  obtain ⟨s', hopen', hconfig', hmemory', hwritten', hverbatim⟩ :=
    openVolume_of_torn hvalid hlog hheld hkept (by omega) (hnew.changeAll before).1.replays htorn
  refine ⟨s', before, hopen', hbefore, hcount, ?_, hmemory', hwritten'.trans hfile.symm, ?_, ?_⟩
  · rw [hend, hwritten']
  · rw [hwritten']
    exact List.prefix_append ..
  · -- the store that opened holds the log of those changes again, so it goes on like the first one
    intro ops' hlength'
    obtain ⟨hafter, hafterConfig⟩ := hverbatim.changeAll ops'
    rw [hconfig'] at hafterConfig
    have hcount' := length_carriedOut_le ops' s'
    have hreopen := hafter.reopen (by rw [hafterConfig, hvalid])
      (by rw [List.length_append]; omega)
    rwa [hafterConfig] at hreopen

/-- A log that ends inside its third entry. A change that was refused has no entry, and of the
others the last one is lost. -/
theorem cut_inside_third_entry :
    let config : StoreConfig := ⟨"state", 2, true, 64⟩
    let ops : List Mutation :=
      [.create "p" none, .put "p" [1] [10], .put "q" [1] [10], .put "p" [2] [20]]
    config.validate = .ok () ∧ ops.length < 0x10000000000000000 ∧
      ∃ s, (openVolume config (some .empty)).1 = .ok s ∧
        let front := (changeAll ops s).file.take 60
        front <+: (changeAll ops s).file ∧ logHeader.length ≤ front.length ∧
        ∃ s', (openVolume config (some ⟨some front, true, false, false⟩)).1 = .ok s' ∧
          s'.written.length = 58 ∧ s'.memory.value? "p" [1] = some [10] ∧
          s'.memory.value? "p" [2] = none := by
  intro config ops
  have hvalid : config.validate = .ok () := rfl
  have hlength : ops.length < 0x10000000000000000 := by decide
  obtain ⟨s, hopen, hcut⟩ := cut_log_recovers hvalid hlength
  refine ⟨hvalid, hlength, s, hopen, List.take_prefix .., ?_⟩
  obtain rfl : onFile config logHeader MemoryStore.empty 0 false = s := Except.ok.inj hopen
  generalize hs : onFile config logHeader MemoryStore.empty 0 false = s at hcut ⊢
  have hheader : logHeader.length ≤ ((changeAll ops s).file.take 60).length := by
    rw [← hs]
    decide +kernel
  obtain ⟨s', before, hopen', hbefore, hcount, hend, hmemory, -⟩ :=
    hcut ⟨_, true, false, false⟩ _ rfl rfl (List.take_prefix 60 _) hheader
  have htwo : (boundaries config.maxEntrySize (changeAll ops s).file).countP
      (· ≤ ((changeAll ops s).file.take 60).length) = 3 := by
    rw [← hs]
    decide +kernel
  have hthird : (boundaries config.maxEntrySize (changeAll ops s).file)[2]? = some 58 := by
    rw [← hs]
    decide +kernel
  -- which changes these were is told by how many entries were counted
  have hbefore' : ∀ n < 5, (carriedOut (ops.take n) s).length = 2 →
      (changeAll (ops.take n) s).memory.value? "p" [1] = some [10] ∧
        (changeAll (ops.take n) s).memory.value? "p" [2] = none := by
    rw [← hs]
    decide +kernel
  have hdone : (carriedOut before s).length = 2 := Nat.succ.inj (hcount.symm.trans htwo)
  rw [hdone, hthird] at hend
  rw [List.prefix_iff_eq_take.1 hbefore] at hdone hmemory
  refine ⟨hheader, s', by rw [hopen'], (Option.some.inj hend).symm, ?_⟩
  rw [hmemory]
  exact hbefore' before.length (Nat.lt_succ_of_le hbefore.length_le) hdone

end LogStore

end AppendLists
