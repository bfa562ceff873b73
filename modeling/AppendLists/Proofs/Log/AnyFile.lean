import AppendLists.Proofs.Log.EntryLimit
import AppendLists.Proofs.Log.History

namespace AppendLists

/-!
# Any file as a log

A store opens on whatever bytes it finds, not only on logs that it wrote. Either it leaves the file
alone, or it keeps the header and the sound entries that follow it, each of which could be applied,
and drops what is left: nothing, a part of an entry, or damage with nothing behind it. What it keeps
is a log of its own, and opens to the same store.

* `LogEntry.Framed`: the bytes of a sound entry, whatever wrote them;
* `TornTail`: what a replay passes over at the end of a file;
* `replayFrom_eq_ok_iff`, `recover_eq_ok_iff`: the files that are recovered, and what they yield;
* `LogStore.opens_iff`: the volumes that open;
* `LogStore.recovery_of_any_file`: what becomes of the file, and of what is left of it.
-/

/-! ### Sound entries -/

/-- The bytes are those of the entry: between its length and its checksum, a record within the limit
that decodes to it. -/
def LogEntry.Framed (limit : Nat) (e : LogEntry) (bs : Bytes) : Prop :=
  ∃ record rest, bs = LogEntry.enclose record ∧ record.length ≤ limit ∧
    record.length < 0x100000000 ∧ LogEntry.format.read record = some (e, rest)

/-- The bytes of an entry are read as this entry, whatever stands behind them. -/
theorem LogEntry.Framed.readEntry_append {limit : Nat} {e : LogEntry} {bs : Bytes}
    (h : e.Framed limit bs) (tail : Bytes) :
    readEntry limit (bs ++ tail) = .entry e bs.length := by
  obtain ⟨record, rest, rfl, hlimit, hlength, hread⟩ := h
  rw [LogEntry.length_enclose]
  exact readEntry_enclose hlimit hlength hread tail

/-- What is read as an entry behind its length begins with the bytes of this entry. -/
theorem framed_of_readAnnounced {limit length size : Nat} {e : LogEntry} {rest : Bytes}
    (hlength : length < 0x100000000) (h : readAnnounced limit length rest = .entry e size) :
    ∃ front tail, Bytes.ofNatLE 4 length ++ rest = front ++ tail ∧ front.length = size ∧
      e.Framed limit front := by
  -- the checks in turn: announced length, length of the file, checksum, record
  unfold readAnnounced at h
  split at h
  · cases h
  · case isFalse hlimit =>
    split at h
    · cases h
    · case isFalse hwhole =>
      simp only at h
      split at h
      · cases h
      · case isFalse hsum =>
        split at h
        · case h_1 e' unread hread =>
          obtain ⟨rfl, rfl⟩ := EntryRead.entry.inj h
          have hrecord : (rest.take length).length = length := List.length_take_of_le (by omega)
          have hchecksum : Bytes.ofNatLE 4 (crc32 (rest.take length)).toNat
              = (rest.drop length).take 4 := by
            have hfour : ((rest.drop length).take 4).length = 4 := by
              rw [List.length_take, List.length_drop]
              omega
            have hlt := Bytes.toNatLE_lt ((rest.drop length).take 4)
            have hwritten := Bytes.ofNatLE_toNatLE ((rest.drop length).take 4)
            rw [hfour] at hlt hwritten
            rw [← Decidable.not_not.1 hsum, UInt32.toNat_ofNat_of_lt' hlt, hwritten]
          refine ⟨LogEntry.enclose (rest.take length), (rest.drop length).drop 4, ?_, ?_,
            rest.take length, unread, rfl, ?_, ?_, hread⟩
          · rw [LogEntry.enclose, hrecord, hchecksum, List.append_assoc, List.append_assoc,
              List.take_append_drop, List.take_append_drop]
          · rw [LogEntry.length_enclose, hrecord]
          · rw [hrecord]
            exact Nat.le_of_not_lt hlimit
          · rwa [hrecord]
        · cases h

/-- What is read as an entry begins with the bytes of this entry. -/
theorem framed_of_readEntry {limit size : Nat} {e : LogEntry} {bs : Bytes}
    (h : readEntry limit bs = .entry e size) :
    ∃ front tail, bs = front ++ tail ∧ front.length = size ∧ e.Framed limit front := by
  have hfour : 4 ≤ bs.length := by
    obtain ⟨hoverhead, hsize⟩ := size_of_readEntry h
    exact Nat.le_trans (Nat.le_trans (by decide) hoverhead) hsize
  have hlength := Bytes.toNatLE_lt (bs.take 4)
  have hwritten := Bytes.ofNatLE_toNatLE (bs.take 4)
  rw [List.length_take_of_le hfour] at hlength hwritten
  rw [readEntry_of_four_le limit hfour] at h
  obtain ⟨front, tail, hbs, hsize, hframed⟩ := framed_of_readAnnounced hlength h
  rw [hwritten, List.take_append_drop] at hbs
  exact ⟨front, tail, hbs, hsize, hframed⟩

/-- An entry that was framed is one. -/
theorem LogEntry.framed_of_frame {limit : Nat} {e : LogEntry} {bs : Bytes}
    (hframe : LogEntry.frame limit e = .ok bs) (hseq : e.seq < 0x10000000000000000) :
    e.Framed limit bs := by
  obtain ⟨hlimit, hlength, rfl⟩ := LogEntry.frame_eq_ok_iff.1 hframe
  have hread := LogEntry.reads_format hseq hlength []
  rw [List.append_nil] at hread
  exact ⟨_, _, rfl, hlimit, hlength, hread⟩

/-- The bytes are those of sound entries, one after another. -/
inductive SoundLog (limit : Nat) : List LogEntry → Bytes → Prop where
  /-- No entry. -/
  | nil : SoundLog limit [] []
  /-- An entry and then the others. -/
  | cons {e : LogEntry} {es : List LogEntry} {bs log : Bytes} (hframed : e.Framed limit bs)
      (hrest : SoundLog limit es log) : SoundLog limit (e :: es) (bs ++ log)

/-! ### What is recovered -/

/-- What a replay passes over at the end of a file: nothing, a part of an entry, or damage that
announces no end before the end of the file. -/
def TornTail (limit : Nat) (torn : Bytes) : Prop :=
  readEntry limit torn = .finished ∨ readEntry limit torn = .short ∨
    ∃ size cause, readEntry limit torn = .damaged size cause ∧ torn.length ≤ size

theorem tornTail_nil (limit : Nat) : TornTail limit [] := .inl (readEntry_nil limit)

theorem TornTail.replayFrom {limit : Nat} {torn : Bytes} (h : TornTail limit torn)
    (r : Recovered) : replayFrom limit torn r = .ok r := by
  rcases h with hfinished | hshort | ⟨size, cause, hdamaged, hsize⟩
  · exact replayFrom_torn (.inl hfinished)
  · exact replayFrom_torn (.inr hshort)
  · rw [replayFrom_damaged hdamaged, if_neg (Nat.not_lt_of_le hsize)]

/-- The highest of the numbers of entries and of `seq`. -/
def highestSeq (es : List LogEntry) (seq : Nat) : Nat := es.foldl (fun seq e => max seq e.seq) seq

theorem highestSeq_cons (e : LogEntry) (es : List LogEntry) (seq : Nat) :
    highestSeq (e :: es) seq = highestSeq es (max seq e.seq) := rfl

/-- A replay succeeds if there are sound entries whose changes succeed in turn, and a torn tail, and
this is what it yields. -/
theorem replayFrom_eq_ok_iff {limit : Nat} {bs : Bytes} {r r' : Recovered} :
    replayFrom limit bs r = .ok r' ↔
      ∃ es log torn, bs = log ++ torn ∧ SoundLog limit es log ∧ TornTail limit torn ∧
        Mutation.applyAll (es.map (·.mutation)) r.memory = .ok r'.memory ∧
        r'.maxSeq = highestSeq es r.maxSeq ∧ r'.validLength = r.validLength + log.length := by
  constructor
  · intro h
    -- along the replay: the tail is what is left where it stops
    fun_induction replayFrom limit bs r with
    | case1 bs r hread =>
      obtain rfl := Except.ok.inj h
      exact ⟨[], [], bs, rfl, .nil, .inl hread, rfl, rfl, rfl⟩
    | case2 bs r hread =>
      obtain rfl := Except.ok.inj h
      exact ⟨[], [], bs, rfl, .nil, .inr (.inl hread), rfl, rfl, rfl⟩
    -- more bytes follow a damaged entry, so the file is refused
    | case3 bs r size cause hread hsize => cases h
    | case4 bs r size cause hread hsize =>
      obtain rfl := Except.ok.inj h
      have htorn : TornTail limit bs := .inr (.inr ⟨size, cause, hread, Nat.le_of_not_lt hsize⟩)
      exact ⟨[], [], bs, rfl, .nil, htorn, rfl, rfl, rfl⟩
    | case5 bs r e size hread hle cause memory happly => cases h
    | case6 bs r e size hread hle memory happly ih =>
      obtain ⟨front, tail, rfl, rfl, hframed⟩ := framed_of_readEntry hread
      obtain ⟨es, log, torn, htail, hlog, htorn, hall, hseq, hlength⟩ := ih h
      rw [List.drop_left] at htail
      refine ⟨e :: es, front ++ log, torn, ?_, .cons hframed hlog, htorn, ?_, hseq, ?_⟩
      · rw [htail, List.append_assoc]
      · rw [List.map_cons, Mutation.applyAll, happly]
        exact hall
      · rw [hlength, List.length_append, Nat.add_assoc]
  · -- along the entries: each is read in front of whatever follows
    rintro ⟨es, log, torn, rfl, hlog, htorn, hall, hseq, hlength⟩
    induction hlog generalizing r with
    | nil =>
      obtain ⟨memory, maxSeq, validLength⟩ := r'
      obtain rfl : r.memory = memory := Except.ok.inj hall
      obtain rfl : maxSeq = r.maxSeq := hseq
      obtain rfl : validLength = r.validLength := hlength
      exact htorn.replayFrom r
    | @cons e es bs log hframed hrest ih =>
      rw [List.map_cons, Mutation.applyAll] at hall
      split at hall
      · case h_1 memory hfirst =>
        rw [List.append_assoc, replayFrom_entry (hframed.readEntry_append _) hfirst]
        rw [highestSeq_cons] at hseq
        apply ih hall hseq
        rw [hlength, List.length_append, Nat.add_assoc]
      · cases hall

/-- The files that are recovered: behind the header, sound entries whose changes lead from the empty
store to the one that is recovered, and a torn tail, which is not counted. -/
theorem recover_eq_ok_iff {limit : Nat} {file : Bytes} {r : Recovered} :
    recover limit file = .ok r ↔
      ∃ es log torn, file = logHeader ++ log ++ torn ∧ SoundLog limit es log ∧
        TornTail limit torn ∧
        Mutation.applyAll (es.map (·.mutation)) MemoryStore.empty = .ok r.memory ∧
        r.maxSeq = highestSeq es 0 ∧ r.validLength = (logHeader ++ log).length := by
  constructor
  · intro h
    obtain ⟨bs, rfl⟩ := header_of_recover h
    rw [recover_header, replayFrom_eq_ok_iff] at h
    obtain ⟨es, log, torn, rfl, hlog, htorn, hall, hseq, hlength⟩ := h
    refine ⟨es, log, torn, (List.append_assoc ..).symm, hlog, htorn, hall, hseq, ?_⟩
    rw [hlength, List.length_append]
  · rintro ⟨es, log, torn, rfl, hlog, htorn, hall, hseq, hlength⟩
    rw [List.append_assoc, recover_header, replayFrom_eq_ok_iff]
    refine ⟨es, log, torn, rfl, hlog, htorn, hall, hseq, ?_⟩
    rw [hlength, List.length_append]

/-- What is kept of a file is recovered to the same. -/
theorem recover_take {limit : Nat} {file : Bytes} {r : Recovered}
    (h : recover limit file = .ok r) : recover limit (file.take r.validLength) = .ok r := by
  obtain ⟨es, log, torn, rfl, hlog, -, hall, hseq, hlength⟩ := recover_eq_ok_iff.1 h
  rw [hlength, List.take_left, recover_eq_ok_iff]
  refine ⟨es, log, [], ?_, hlog, tornTail_nil limit, hall, hseq, hlength⟩
  rw [List.append_nil]

namespace LogStore

variable {config : StoreConfig} {v : Volume} {file : Bytes}

/-- The volumes that open: nobody holds them, the settings are in order, and the file is a header, a
run of sound entries that can be applied, and a torn tail. -/
theorem opens_iff (hlog : v.log = some file) :
    (∃ s, (openVolume config (some v)).1 = .ok s) ↔
      config.validate = .ok () ∧ v.held = false ∧
        ∃ es log torn memory, file = logHeader ++ log ++ torn ∧
          SoundLog config.maxEntrySize es log ∧ TornTail config.maxEntrySize torn ∧
          Mutation.applyAll (es.map (·.mutation)) MemoryStore.empty = .ok memory := by
  constructor
  · rintro ⟨s, hopen⟩
    obtain ⟨hvalid, hheld, r, hrecover, -⟩ := recover_of_openVolume hlog hopen
    obtain ⟨es, log, torn, hfile, hentries, htorn, hall, -, -⟩ := recover_eq_ok_iff.1 hrecover
    exact ⟨hvalid, hheld, es, log, torn, r.memory, hfile, hentries, htorn, hall⟩
  · rintro ⟨hvalid, hheld, es, log, torn, memory, hfile, hentries, htorn, hall⟩
    have hrecover := recover_eq_ok_iff (r := ⟨memory, _, _⟩) |>.2
      ⟨es, log, torn, hfile, hentries, htorn, hall, rfl, rfl⟩
    exact ⟨_, congrArg Prod.fst (openVolume_of_recover hvalid hlog hheld hrecover)⟩

/-- A volume that fails to open keeps its log. -/
theorem log_of_openVolume_eq_error {e : StorageError} {directory : Option Volume}
    (hopen : openVolume config (some v) = (.error e, directory)) :
    ∃ w, directory = some w ∧ w.log = v.log := by
  unfold openVolume at hopen
  split at hopen
  · obtain ⟨-, rfl⟩ := Prod.mk.inj hopen
    exact ⟨v, rfl, rfl⟩
  · simp only [openExisting] at hopen
    split at hopen
    · obtain ⟨-, rfl⟩ := Prod.mk.inj hopen
      exact ⟨_, rfl, rfl⟩
    · split at hopen
      · cases hopen
      · split at hopen
        · obtain ⟨-, rfl⟩ := Prod.mk.inj hopen
          exact ⟨_, rfl, rfl⟩
        · cases hopen

/-- **Recovery of any file is safe, and repeats itself.** A store is opened on a file of whatever
bytes. If that fails, the file is as it was. If it succeeds, the log of the store is a beginning of
the file: the header and sound entries, whose changes in turn lead from the empty store to the
contents, operands and ways of merging included, and whose highest number comes before the next one;
the rest is a torn tail. Opened once more, on a volume with this log, it is the same store in every
respect, and nothing more is cut off. -/
theorem recovery_of_any_file (hlog : v.log = some file) :
    (∀ e directory, openVolume config (some v) = (.error e, directory) →
      ∃ w, directory = some w ∧ w.log = some file) ∧
    ∀ s directory, openVolume config (some v) = (.ok s, directory) →
      directory = some s.volume ∧ s.volume.log = some s.written ∧
      (∃ es log torn, s.written = logHeader ++ log ∧ file = s.written ++ torn ∧
        SoundLog config.maxEntrySize es log ∧ TornTail config.maxEntrySize torn ∧
        Mutation.applyAll (es.map (·.mutation)) MemoryStore.empty = .ok s.memory ∧
        s.nextSeq = highestSeq es 0 + 1) ∧
      ∀ w : Volume, w.log = some s.written → w.held = false →
        openVolume config (some w) =
          (.ok { s with scratch := w.scratch }, some { s.volume with scratch := w.scratch }) := by
  refine ⟨?_, ?_⟩
  · intro e directory hopen
    obtain ⟨w, hw, hsame⟩ := log_of_openVolume_eq_error hopen
    exact ⟨w, hw, hsame.trans hlog⟩
  · intro s directory hopen
    obtain ⟨hvalid, hheld, r, hrecover, rfl⟩ :=
      recover_of_openVolume hlog (congrArg Prod.fst hopen)
    obtain ⟨-, rfl⟩ :=
      Prod.mk.inj ((openVolume_of_recover hvalid hlog hheld hrecover).symm.trans hopen)
    have hagain := recover_take hrecover
    obtain ⟨es, log, torn, rfl, hentries, htorn, hall, hseq, hlength⟩ :=
      recover_eq_ok_iff.1 hrecover
    refine ⟨rfl, rfl, ⟨es, log, torn, ?_, ?_, hentries, htorn, hall, ?_⟩, ?_⟩
    · show List.take _ _ = _
      rw [hlength, List.take_left]
    · show _ = List.take _ _ ++ torn
      rw [hlength, List.take_left]
    · exact congrArg (· + 1) hseq
    · intro w hw hfree
      rw [openVolume_of_recover hvalid hw hfree hagain]
      -- a second cut at the same place takes nothing away
      simp only [onFile, volume, List.take_take, Nat.min_self]

/-- A file that no store wrote: its numbers go down, and nine bytes at its end fail their checksum. -/
theorem foreign_file_is_cut :
    let config : StoreConfig := ⟨"state", 2, true, 64⟩
    let record (seq : Nat) (m : Mutation) : Bytes :=
      LogEntry.enclose (LogEntry.format.write ⟨seq, m⟩)
    let kept := logHeader ++ record 9 (.create "p" none) ++ record 4 (.put "p" [1] [10])
    let v : Volume := ⟨some (kept ++ [1, 0, 0, 0, 9, 9, 9, 9, 9]), false, false, false⟩
    ∃ s, v.log = some (kept ++ [1, 0, 0, 0, 9, 9, 9, 9, 9]) ∧
      openVolume config (some v) = (.ok s, some s.volume) ∧ s.written = kept ∧
      s.memory.value? "p" [1] = some [10] ∧ s.nextSeq = 10 ∧
      openVolume config (some s.shut) = (.ok s, some s.volume) := by
  intro config record kept v
  have hlog : v.log = some (kept ++ [1, 0, 0, 0, 9, 9, 9, 9, 9]) := rfl
  have hrun : (openVolume config (some v)).1.toOption.map
      (fun s => (s.written, s.memory.value? "p" [1], s.nextSeq, s.buffered))
        = some (kept, some [10], 10, []) := by
    decide +kernel
  rcases hopen : openVolume config (some v) with ⟨_ | s, directory⟩
  · rw [hopen] at hrun
    cases hrun
  · rw [hopen] at hrun
    simp only [Except.toOption, Option.map_some, Option.some.injEq, Prod.mk.injEq] at hrun
    obtain ⟨hwritten, hvalue, hnext, hbuffered⟩ := hrun
    obtain ⟨rfl, -, -, hagain⟩ := (recovery_of_any_file hlog).2 s directory hopen
    refine ⟨s, hlog, rfl, hwritten, hvalue, hnext, ?_⟩
    rw [hagain s.shut (by rw [written_shut, hbuffered, List.append_nil]) rfl]
    rfl

end LogStore

end AppendLists
