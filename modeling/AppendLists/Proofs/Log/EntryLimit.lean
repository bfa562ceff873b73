import AppendLists.Proofs.Log.DamagedLength

namespace AppendLists

/-!
# Logs opened under another limit

The limit on entries is checked when they are written, and again when they are read. A log that was
written under a larger limit may have sound entries that the reader takes for damaged. In front of
other bytes such an entry is corruption, and the file is left alone; at the end of the file it
counts as a torn tail, and is cut off without a look at its checksum.

* `LogEntry.Exceeds`: the entries that a limit rules out;
* `Logged.under`, `readEntry_of_exceeds`: entries read under another limit;
* `replayFrom_torn_under`: what a log was cut off with stays harmless under every limit;
* `leadingEntries`, `fileEntries`: the sound entries of a file;
* `LogStore.OpensTo`: what a volume opens to;
* `LogStore.Attainable.open_under`: what a log comes to under another limit;
* `LogStore.smaller_limit_drops_entry`: a log that loses its last entry.
-/

/-! ### Entries under another limit -/

/-- Whether the record of an entry is longer than a limit. -/
def LogEntry.Exceeds (limit : Nat) (e : LogEntry) : Prop :=
  limit < (LogEntry.format.write e).length

instance (limit : Nat) (e : LogEntry) : Decidable (e.Exceeds limit) :=
  inferInstanceAs (Decidable (limit < _))

/-- Changes keep the bytes of their entries under every limit that none of them exceeds. -/
theorem Logged.under {limit seq : Nat} {ms : List Mutation} {log : Bytes}
    (h : Logged limit seq ms log) {limit' : Nat}
    (hfits : ∀ e ∈ numbered seq ms, ¬ e.Exceeds limit') : Logged limit' seq ms log := by
  induction h with
  | nil seq => exact .nil seq
  | @cons seq m ms bs log hframe hrest ih =>
    obtain ⟨hfirst, hothers⟩ := List.forall_mem_cons.1 hfits
    obtain ⟨-, hlength, hbs⟩ := LogEntry.frame_eq_ok_iff.1 hframe
    exact .cons (LogEntry.frame_eq_ok_iff.2 ⟨Nat.le_of_not_lt hfirst, hlength, hbs⟩) (ih hothers)

/-- An entry that exceeds the limit is read as damaged, with the size it has. -/
theorem readEntry_of_exceeds {limit limit' : Nat} {e : LogEntry} {bs : Bytes}
    (hframe : LogEntry.frame limit e = .ok bs) (hexceeds : e.Exceeds limit') (tail : Bytes) :
    readEntry limit' (bs ++ tail)
      = .damaged bs.length (.entryTooLong (LogEntry.format.write e).length limit') := by
  obtain ⟨-, hlength, rfl⟩ := LogEntry.frame_eq_ok_iff.1 hframe
  rw [LogEntry.length_enclose, LogEntry.enclose, List.append_assoc, List.append_assoc,
    readEntry_announced hlength, readAnnounced, if_pos]
  exact hexceeds

/-- What is read behind any four bytes. -/
theorem readEntry_of_four_le (limit : Nat) {bs : Bytes} (h : 4 ≤ bs.length) :
    readEntry limit bs = readAnnounced limit (Bytes.toNatLE (bs.take 4)) (bs.drop 4) := by
  have hne : ¬ bs.isEmpty = true := by
    cases bs with
    | nil => simp at h
    | cons b bs => simp
  have htotal : bs.length < Bytes.toNatLE (bs.take 4) + entryOverhead
      ↔ (bs.drop 4).length < Bytes.toNatLE (bs.take 4) + 4 := by
    rw [List.length_drop, entryOverhead]
    omega
  rw [readEntry, if_neg hne, if_neg (Nat.not_lt_of_le h)]
  simp only [htotal, ← List.drop_drop]
  rfl

/-- A part of an entry ends the replay under every limit: if what it announces is too long, then the
end it announces lies behind the end of the file. -/
theorem replayFrom_torn_under {limit : Nat} {torn : Bytes}
    (h : readEntry limit torn = .finished ∨ readEntry limit torn = .short) (limit' : Nat)
    (r : Recovered) : replayFrom limit' torn r = .ok r := by
  by_cases hfour : 4 ≤ torn.length
  · rw [readEntry_of_four_le limit hfour] at h
    have hread := readEntry_of_four_le limit' hfour
    -- not enough bytes follow for the announced length, because nothing else ends a replay
    have hlength : (torn.drop 4).length < Bytes.toNatLE (torn.take 4) + 4 := by
      rcases readAnnounced_cases limit (Bytes.toNatLE (torn.take 4)) (torn.drop 4) with
        ⟨e, size, hcase⟩ | ⟨-, hlt⟩ | ⟨cause, hcase⟩
      · simp [hcase] at h
      · exact hlt
      · simp [hcase] at h
    rw [readAnnounced] at hread
    simp only [if_pos hlength] at hread
    split at hread
    · rw [replayFrom_damaged hread, if_neg]
      rw [List.length_drop] at hlength
      rw [entryOverhead]
      omega
    · -- the announced length is within the other limit, so the entry is cut short there too
      exact replayFrom_torn (.inr hread)
  · -- fewer bytes than a length takes are short under any limit
    apply replayFrom_torn
    by_cases hempty : torn = []
    · exact .inl (by rw [hempty, readEntry_nil])
    · right
      rw [readEntry, if_neg (by simpa using hempty), if_pos (Nat.lt_of_not_le hfour)]

/-! ### The entries of a file -/

/-- The sound entries at the start of `log`, up to the first place where there is none. -/
def leadingEntries (limit : Nat) (log : Bytes) : List LogEntry :=
  match h : readEntry limit log with
  | .entry e size =>
    have := length_drop_lt h
    e :: leadingEntries limit (log.drop size)
  | _ => []
termination_by log.length
decreasing_by exact this

/-- The entries of a log file, as they stand behind its header. -/
def fileEntries (limit : Nat) (file : Bytes) : List LogEntry :=
  leadingEntries limit (file.drop logHeader.length)

theorem leadingEntries_entry {limit : Nat} {bs log : Bytes} {e : LogEntry}
    (h : readEntry limit (bs ++ log) = .entry e bs.length) :
    leadingEntries limit (bs ++ log) = e :: leadingEntries limit log := by
  rw [leadingEntries]
  split <;> simp_all

theorem leadingEntries_torn {limit : Nat} {torn : Bytes}
    (h : readEntry limit torn = .finished ∨ readEntry limit torn = .short) :
    leadingEntries limit torn = [] := by
  rw [leadingEntries]
  rcases h with h | h <;> split <;> simp_all

/-- The entries of a log are its changes with their numbers, whatever part of an entry follows. -/
theorem Logged.leadingEntries_append {limit seq : Nat} {ms : List Mutation} {log torn : Bytes}
    (h : Logged limit seq ms log) (hseq : seq + ms.length < 0x10000000000000000)
    (htorn : readEntry limit torn = .finished ∨ readEntry limit torn = .short) :
    leadingEntries limit (log ++ torn) = numbered seq ms := by
  induction h with
  | nil seq => exact leadingEntries_torn htorn
  | @cons seq m ms bs log hframe hrest ih =>
    rw [List.length_cons] at hseq
    have hread := readEntry_frame hframe (by show seq + 1 < _; omega) (Nat.le_refl limit)
      (log ++ torn)
    rw [List.append_assoc, leadingEntries_entry hread, ih (by omega), numbered]

theorem map_mutation_numbered (seq : Nat) (ms : List Mutation) :
    (numbered seq ms).map (·.mutation) = ms := by
  induction ms generalizing seq with
  | nil => rfl
  | cons m ms ih => rw [numbered, List.map_cons, ih]

theorem length_numbered (seq : Nat) (ms : List Mutation) :
    (numbered seq ms).length = ms.length := by
  rw [← List.length_map (f := LogEntry.mutation), map_mutation_numbered]

/-- Entries around one of them are changes around one of them. -/
theorem numbered_eq_append {seq : Nat} {ms : List Mutation} {done later : List LogEntry}
    {e : LogEntry} (h : numbered seq ms = done ++ e :: later) :
    ∃ before m after, ms = before ++ m :: after ∧ done = numbered seq before ∧
      e = ⟨seq + before.length + 1, m⟩ := by
  induction done generalizing seq ms with
  | nil =>
    cases ms with
    | nil => cases h
    | cons m ms =>
      obtain ⟨rfl, -⟩ := List.cons.inj h
      exact ⟨[], m, ms, rfl, rfl, rfl⟩
  | cons d done ih =>
    cases ms with
    | nil => cases h
    | cons m ms =>
      obtain ⟨rfl, hrest⟩ := List.cons.inj h
      obtain ⟨before, m', after, rfl, rfl, rfl⟩ := ih hrest
      refine ⟨m :: before, m', after, rfl, rfl, ?_⟩
      rw [List.length_cons, Nat.add_assoc seq 1, Nat.add_comm 1]

namespace LogStore

variable {config config' : StoreConfig} {s : LogStore} {n : Nat} {v : Volume}

/-- The volume opens: to a store with the changes of some entries, and with `file` as its log. -/
def OpensTo (config : StoreConfig) (v : Volume) (es : List LogEntry) (file : Bytes) : Prop :=
  ∃ s, openVolume config (some v) = (.ok s, some s.volume) ∧ s.written = file ∧
    Mutation.applyAll (es.map (·.mutation)) MemoryStore.empty = .ok s.memory

/-- A file opens whole under a limit that none of its entries exceeds. -/
theorem opensTo_of_fits (hvalid' : config'.validate = .ok ()) (hheld : v.held = false)
    {ms : List Mutation} {log torn : Bytes} (hlog : v.log = some (logHeader ++ log ++ torn))
    (hlogged : Logged config.maxEntrySize 0 ms log) (hseq : ms.length < 0x10000000000000000)
    {memory : MemoryStore} (hall : Mutation.applyAll ms MemoryStore.empty = .ok memory)
    (htorn : readEntry config.maxEntrySize torn = .finished ∨
      readEntry config.maxEntrySize torn = .short)
    (hfits : ∀ e ∈ numbered 0 ms, ¬ e.Exceeds config'.maxEntrySize) :
    OpensTo config' v (numbered 0 ms) (logHeader ++ log) := by
  have hrecover := recover_append (hlogged.under hfits) hseq (Nat.le_refl _) hall torn
  rw [replayFrom_torn_under htorn config'.maxEntrySize] at hrecover
  refine ⟨_, openVolume_of_recover hvalid' hlog hheld hrecover, List.take_left, ?_⟩
  rw [map_mutation_numbered]
  exact hall

/-- Where something is read as damaged the replay ends: in an error if anything stands behind it, and
without it otherwise. -/
theorem open_at_damage (hvalid : config.validate = .ok ()) (hheld : v.held = false)
    {before : List Mutation} {log damaged rest : Bytes}
    (hlog : v.log = some (logHeader ++ log ++ (damaged ++ rest)))
    (hlogged : Logged config.maxEntrySize 0 before log)
    (hseq : before.length < 0x10000000000000000) {memory : MemoryStore}
    (hall : Mutation.applyAll before MemoryStore.empty = .ok memory) {cause : StorageError}
    (hread : readEntry config.maxEntrySize (damaged ++ rest) = .damaged damaged.length cause) :
    (rest ≠ [] → openVolume config (some v)
        = (.error (.damagedEntry (logHeader ++ log).length rest.length cause),
          some { v with lockFile := true })) ∧
      (rest = [] → OpensTo config v (numbered 0 before) (logHeader ++ log)) := by
  have hrecover := recover_append hlogged hseq (Nat.le_refl _) hall (damaged ++ rest)
  rw [replayFrom_damaged hread, List.length_append, Nat.add_sub_cancel_left] at hrecover
  constructor
  · intro hne
    -- an error, because something is behind the damage
    rw [if_pos (Nat.lt_add_of_pos_right (List.length_pos_iff.2 hne))] at hrecover
    exact openVolume_of_recover_error hvalid hlog hheld hrecover
  · rintro rfl
    -- nothing is behind it, so what was sound is recovered
    rw [if_neg (by simp)] at hrecover
    refine ⟨_, openVolume_of_recover hvalid hlog hheld hrecover, List.take_left, ?_⟩
    rw [map_mutation_numbered]
    exact hall

/-- So it does at the first entry that exceeds the limit. -/
theorem open_at_exceeding (hvalid' : config'.validate = .ok ()) (hheld : v.held = false)
    {before : List Mutation} {m : Mutation} {log bs rest : Bytes}
    (hlog : v.log = some (logHeader ++ log ++ (bs ++ rest)))
    (hlogged : Logged config.maxEntrySize 0 before log)
    (hframe : LogEntry.frame config.maxEntrySize ⟨before.length + 1, m⟩ = .ok bs)
    (hseq : before.length < 0x10000000000000000) {memory : MemoryStore}
    (hall : Mutation.applyAll before MemoryStore.empty = .ok memory)
    (hfits : ∀ e ∈ numbered 0 before, ¬ e.Exceeds config'.maxEntrySize)
    (hexceeds : LogEntry.Exceeds config'.maxEntrySize ⟨before.length + 1, m⟩) :
    (rest ≠ [] → openVolume config' (some v)
        = (.error (.damagedEntry (logHeader ++ log).length rest.length
            (.entryTooLong (LogEntry.format.write ⟨before.length + 1, m⟩).length
              config'.maxEntrySize)), some { v with lockFile := true })) ∧
      (rest = [] → OpensTo config' v (numbered 0 before) (logHeader ++ log)) :=
  open_at_damage hvalid' hheld hlog (hlogged.under hfits) hseq hall
    (readEntry_of_exceeds hframe hexceeds rest)

/-- **What a log comes to under another limit.** The file is what any run left of its log, whole or
cut off anywhere behind the header, and it is opened under any valid configuration. If none of its
entries exceeds the limit of this one, all are replayed and kept. Otherwise the first that does
decides. If anything stands behind it, opening fails with an error that names it, and the file is
left as it was. If it ends the file, the entries before it are replayed, and it is cut off, though
it is as sound as they are. -/
theorem Attainable.open_under (hvalid : config.validate = .ok ()) (h : Attainable config n s)
    (hn : n < 0x10000000000000000) (hvalid' : config'.validate = .ok ()) {file : Bytes}
    (hlog : v.log = some file) (hheld : v.held = false)
    (hfile : file <+: s.written ++ s.buffered) (hheader : logHeader.length ≤ file.length) :
    let es := fileEntries config.maxEntrySize file
    let ends := boundaries config.maxEntrySize file
    ((∀ e ∈ es, ¬ e.Exceeds config'.maxEntrySize) →
        ∃ stop, ends[es.length]? = some stop ∧ OpensTo config' v es (file.take stop)) ∧
      ∀ done e later, es = done ++ e :: later →
        (∀ d ∈ done, ¬ d.Exceeds config'.maxEntrySize) → e.Exceeds config'.maxEntrySize →
        ∃ offset stop, ends[done.length]? = some offset ∧ ends[done.length + 1]? = some stop ∧
          (stop < file.length → openVolume config' (some v)
            = (.error (.damagedEntry offset (file.length - stop)
                (.entryTooLong (LogEntry.format.write e).length config'.maxEntrySize)),
              some { v with lockFile := true })) ∧
          (stop = file.length → OpensTo config' v done (file.take offset)) := by
  obtain ⟨ms, hlegible, rfl⟩ := h.legible hvalid hn
  have hcount := hlegible.count
  obtain ⟨memory, hall, -⟩ := hlegible.replays
  obtain ⟨whole, hwhole, hlogged⟩ := hlegible.logged
  rw [hwhole] at hfile
  -- the file is the log of some of the changes, and a part of an entry
  obtain ⟨front, rfl⟩ := List.prefix_of_prefix_length_le (List.prefix_append ..) hfile hheader
  obtain ⟨kept, rest, log, torn, rfl, rfl, hkept, htorn, -⟩ :=
    hlogged.cut (by omega) ((List.prefix_append_right_inj logHeader).1 hfile) 0
  obtain ⟨memory, hall, -⟩ := Mutation.applyAll_of_append hall
  rw [List.length_append] at hcount
  have hentries : fileEntries s.config.maxEntrySize (logHeader ++ (log ++ torn))
      = numbered 0 kept := by
    rw [fileEntries, List.drop_left, hkept.leadingEntries_append (by omega) htorn]
  simp only [hentries, length_numbered]
  rw [← List.append_assoc] at hlog ⊢
  constructor
  · intro hfits
    refine ⟨_, hkept.getElem?_boundaries (by omega) torn, ?_⟩
    rw [List.take_left]
    exact opensTo_of_fits hvalid' hheld hlog hkept (by omega) hall htorn hfits
  · intro done e later hes hfits hexceeds
    obtain ⟨before, m, after, rfl, rfl, rfl⟩ := numbered_eq_append hes
    obtain ⟨log₁, log₂, rfl, hbefore, hafter⟩ := hkept.split
    rw [Nat.zero_add] at hafter hexceeds ⊢
    rw [List.length_append, List.length_cons] at hcount
    cases hafter with
    | @cons _ _ _ bs log₂ hframe hafter =>
      obtain ⟨memory₁, hall₁, -⟩ := Mutation.applyAll_of_append hall
      have hlayout : logHeader ++ (log₁ ++ (bs ++ log₂)) ++ torn
          = logHeader ++ log₁ ++ (bs ++ (log₂ ++ torn)) := by simp
      have hlayout' : logHeader ++ (log₁ ++ bs) ++ (log₂ ++ torn)
          = logHeader ++ log₁ ++ (bs ++ (log₂ ++ torn)) := by simp
      rw [hlayout] at hlog ⊢
      -- there is a boundary before the entry and one behind it
      have hoffset := hbefore.getElem?_boundaries (by omega) (bs ++ (log₂ ++ torn))
      have hthrough := hbefore.concat (by rwa [Nat.zero_add])
      have hlength : (before ++ [m]).length = before.length + 1 := List.length_append
      have hstop := hthrough.getElem?_boundaries (by omega) (log₂ ++ torn)
      rw [hlayout', hlength] at hstop
      obtain ⟨herror, hcut⟩ := open_at_exceeding hvalid' hheld hlog hbefore hframe (by omega) hall₁
        hfits hexceeds
      have htotal : (logHeader ++ log₁ ++ (bs ++ (log₂ ++ torn))).length
          = (logHeader ++ (log₁ ++ bs)).length + (log₂ ++ torn).length := by
        rw [← hlayout', List.length_append]
      rw [length_numbered]
      refine ⟨_, _, hoffset, hstop, ?_, ?_⟩
      · intro hlt
        rw [htotal, Nat.add_sub_cancel_left]
        exact herror (List.ne_nil_of_length_pos (by omega))
      · intro heq
        rw [List.take_left]
        exact hcut (List.eq_nil_of_length_eq_zero (by omega))

/-- A log of three sound entries, opened under a limit that only the last of them exceeds. -/
theorem smaller_limit_drops_entry :
    let config : StoreConfig := ⟨"state", 2, true, 64⟩
    let config' : StoreConfig := { config with maxEntrySize := 24 }
    let last : Mutation := .put "p" [2] (List.replicate 15 20)
    let changes : List Mutation := [.create "p" none, .put "p" [1] [10], last]
    let s : LogStore := changes.foldl (fun s m => (logThenApply m s).2)
      (onFile config logHeader MemoryStore.empty 0 false)
    let file := s.written ++ s.buffered
    config.validate = .ok () ∧ config'.validate = .ok () ∧ Attainable config 3 s ∧
      fileEntries config.maxEntrySize file = numbered 0 changes ∧
      boundaries config.maxEntrySize file = [5, 36, 58, file.length] ∧
      ∃ s', openVolume config' (some ⟨some file, true, false, false⟩) = (.ok s', some s'.volume) ∧
        s.memory.value? "p" [2] = some (List.replicate 15 20) ∧ s'.memory.value? "p" [2] = none ∧
        s'.volume.log = some (file.take 58) := by
  intro config config' last changes s file
  have hvalid : config.validate = .ok () := rfl
  have hvalid' : config'.validate = .ok () := rfl
  have hs : Attainable config 3 s := ((Attainable.opened rfl).change _).change _ |>.change _
  have hentries : fileEntries config.maxEntrySize file = numbered 0 changes := by decide +kernel
  have hends : boundaries config.maxEntrySize file = [5, 36, 58, file.length] := by decide +kernel
  have hlive : s.memory.value? "p" [2] = some (List.replicate 15 20) := by decide +kernel
  have hheader : logHeader.length ≤ file.length := by decide +kernel
  have hfits : ∀ d ∈ numbered 0 [.create "p" none, .put "p" [1] [10]],
      ¬ d.Exceeds config'.maxEntrySize := by decide +kernel
  have hexceeds : LogEntry.Exceeds config'.maxEntrySize ⟨3, last⟩ := by decide +kernel
  obtain ⟨offset, stop, hoffset, hstop, -, hcut⟩ :=
    (hs.open_under hvalid (by decide) hvalid' (v := ⟨some file, true, false, false⟩) rfl rfl
      (List.prefix_refl _) hheader).2 _ _ [] hentries hfits hexceeds
  rw [hends] at hoffset hstop
  obtain rfl : 58 = offset := Option.some.inj hoffset
  obtain ⟨s', hopen, hwritten, hall⟩ := hcut (Option.some.inj hstop).symm
  have hvalue : (Mutation.applyAll [.create "p" none, .put "p" [1] [10]]
      MemoryStore.empty).toOption.map (fun memory => memory.value? "p" [2]) = some none := by
    decide +kernel
  have hmemory : Mutation.applyAll [.create "p" none, .put "p" [1] [10]] MemoryStore.empty
      = .ok s'.memory := hall
  rw [hmemory] at hvalue
  exact ⟨hvalid, hvalid', hs, hentries, hends, s', hopen, hlive, Option.some.inj hvalue,
    congrArg some hwritten⟩

end LogStore

end AppendLists
