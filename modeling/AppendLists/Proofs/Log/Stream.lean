import AppendLists.Proofs.Codec.Exact
import AppendLists.Proofs.Log.Acceptance

namespace AppendLists

/-!
# Entries read off a stream

A log is read as a stream, an entry in three parts: its length, its record and its checksum. What fails a
check is not read any further. So behind a sound entry the stream stands exactly where the entry ends, and
what follows is read from there.

* `judgeRecord`, `readAnnouncedAt`, `readEntryAt`: an entry read part by part, from where a cursor is;
* `readEntryAt_spec`: what is read is what the log holds there, and a sound entry is passed whole;
* `LogEntry.frame_round_trip`: entries of any kind and length, in front of anything.
-/

/-! ### Part by part -/

/-- What a record of the announced length is, by its checksum and its content. -/
def judgeRecord (length : Nat) (record sum : Bytes) : EntryRead :=
  let expected := UInt32.ofNat (Bytes.toNatLE sum)
  if expected ≠ crc32 record then
    .damaged (length + entryOverhead) (.checksumMismatch expected (crc32 record))
  else
    match LogEntry.format.read record with
    | some (e, _) => .entry e (length + entryOverhead)
    | none => .damaged (length + entryOverhead) .undecodableEntry

/-- Read the record and the checksum behind an announced length. -/
def readAnnouncedAt (limit length : Nat) (c : Cursor) : EntryRead × Cursor :=
  if limit < length then (.damaged (length + entryOverhead) (.entryTooLong length limit), c)
  else
    let (record, c) := c.fill length
    if record.length < length then (.short, c)
    else
      let (sum, c) := c.fill 4
      if sum.length < 4 then (.short, c) else (judgeRecord length record sum, c)

/-- Read an entry from where the cursor is. -/
def readEntryAt (limit : Nat) (c : Cursor) : EntryRead × Cursor :=
  let (announced, c) := c.fill 4
  if announced.isEmpty then (.finished, c)
  else if announced.length < 4 then (.short, c)
  else readAnnouncedAt limit (Bytes.toNatLE announced) c

variable {limit length size : Nat} {e : LogEntry}

theorem size_of_judgeRecord {record sum : Bytes}
    (h : judgeRecord length record sum = .entry e size) : size = length + entryOverhead := by
  unfold judgeRecord at h
  simp only at h
  split at h
  · cases h
  · split at h
    · exact (EntryRead.entry.inj h).2.symm
    · cases h

/-- Record and checksum are read as they stand behind the announced length, and a sound entry is passed
whole. -/
theorem readAnnouncedAt_spec (limit length : Nat) (c : Cursor) :
    (readAnnouncedAt limit length c).1 = readAnnounced limit length c.rest ∧
      ∀ e size, readAnnounced limit length c.rest = .entry e size →
        size = length + entryOverhead ∧
          (readAnnouncedAt limit length c).2 = c.skip (length + 4) := by
  have hrecord : min length c.remaining < length ↔ c.remaining < length := by omega
  have hsum : min 4 (c.remaining - length) < 4 ↔ c.remaining < length + 4 := by omega
  unfold readAnnouncedAt readAnnounced
  simp only [Cursor.fill, Cursor.rest_skip, Cursor.skip_skip, List.length_take, List.length_drop,
    Cursor.length_rest, hrecord, hsum]
  by_cases hlimit : limit < length
  · simp [hlimit]
  · rw [if_neg hlimit, if_neg hlimit]
    by_cases hshort : c.remaining < length + 4
    · -- the record or the checksum is cut off
      rw [if_pos hshort, if_pos hshort]
      exact ⟨by split <;> rfl, fun e size hread => by cases hread⟩
    · rw [if_neg hshort, if_neg hshort, if_neg (by omega)]
      exact ⟨rfl, fun e size hread => ⟨size_of_judgeRecord hread, rfl⟩⟩

/-- What is read is what the log holds there, and a sound entry is passed whole. -/
theorem readEntryAt_spec (limit : Nat) (c : Cursor) :
    (readEntryAt limit c).1 = readEntry limit c.rest ∧
      ∀ e size, readEntry limit c.rest = .entry e size →
        (readEntryAt limit c).2 = c.skip size := by
  have hparts : readEntryAt limit c
      = if (c.rest.take 4).isEmpty then (.finished, c.skip 4)
        else if (c.rest.take 4).length < 4 then (.short, c.skip 4)
        else readAnnouncedAt limit (Bytes.toNatLE (c.rest.take 4)) (c.skip 4) := rfl
  rw [hparts]
  by_cases hempty : c.rest = []
  · simp [hempty, readEntry]
  · rw [if_neg (by simp [hempty])]
    by_cases hshort : c.rest.length < 4
    · have hread : readEntry limit c.rest = .short := by
        rw [readEntry, if_neg (by simpa using hempty), if_pos hshort]
      rw [if_pos (by rw [List.length_take]; omega), hread]
      exact ⟨rfl, fun e size hentry => by cases hentry⟩
    · obtain ⟨hsame, hpassed⟩ :=
        readAnnouncedAt_spec limit (Bytes.toNatLE (c.rest.take 4)) (c.skip 4)
      rw [if_neg (by rw [List.length_take]; omega), readEntry_of_four_le _ (Nat.le_of_not_lt hshort),
        ← Cursor.rest_skip]
      refine ⟨hsame, fun e size hentry => ?_⟩
      obtain ⟨rfl, hbehind⟩ := hpassed e size hentry
      rw [hbehind, Cursor.skip_skip, entryOverhead, ← Nat.add_assoc, Nat.add_comm 4]

/-- Behind a sound entry the stream has what stands behind the entry. -/
theorem readEntryAt_of_readEntry {bs tail : Bytes}
    (h : readEntry limit (bs ++ tail) = .entry e bs.length) {c : Cursor} (hc : c.rest = bs ++ tail) :
    ∃ c', readEntryAt limit c = (.entry e bs.length, c') ∧ c'.rest = tail := by
  obtain ⟨hsame, hpassed⟩ := readEntryAt_spec limit c
  rw [hc] at hsame hpassed
  refine ⟨c.skip bs.length, Prod.ext (hsame.trans h) (hpassed e bs.length h), ?_⟩
  rw [Cursor.rest_skip, hc, List.drop_left]

/-! ### Entries of any kind -/

namespace LogEntry

/-- **An entry that is written is read back, whatever stands behind it.** An entry of any change, with any
number of 64 bits, whose record is within the limit and has a length of four bytes, is framed. What is
framed is read as this entry, with the size of what was written, and a stream that reads it goes on with
exactly what stands behind it. It is also what a store with this limit and this number puts behind its log
when it logs the change. If the record exceeds the limit, the entry is refused, and a store that is to log
it fails and stays as it is: not a byte is written. -/
theorem frame_round_trip (limit : Nat) (e : LogEntry) (hseq : e.seq < 0x10000000000000000) :
    let record := format.write e
    (record.length ≤ limit → record.length < 0x100000000 →
      ∃ bs, frame limit e = .ok bs ∧ bs.length = record.length + entryOverhead ∧
        (∀ tail, readEntry limit (bs ++ tail) = .entry e bs.length) ∧
        (∀ c tail, c.rest = bs ++ tail →
          ∃ c', readEntryAt limit c = (.entry e bs.length, c') ∧ c'.rest = tail) ∧
        ∀ s s' : LogStore, s.config.maxEntrySize = limit → s.nextSeq = e.seq →
          LogStore.logThenApply e.mutation s = (.ok (), s') → s'.file = s.file ++ bs) ∧
    (limit < record.length →
      frame limit e = .error (.entryRefused record.length limit) ∧
      ∀ s : LogStore, s.config.maxEntrySize = limit → s.nextSeq = e.seq →
        ∃ cause, LogStore.logThenApply e.mutation s = (.error cause, s)) := by
  intro record
  constructor
  · intro hlimit hlength
    have hframe : frame limit e = .ok (enclose record) := frame_eq_ok_iff.2 ⟨hlimit, hlength, rfl⟩
    -- the entry is read in front of anything, so the log and the stream read the same one
    have hread : ∀ tail, readEntry limit (enclose record ++ tail)
        = .entry e (enclose record).length := readEntry_frame hframe hseq (Nat.le_refl limit)
    refine ⟨_, hframe, length_enclose record, hread,
      fun c tail hc => readEntryAt_of_readEntry (hread tail) hc, ?_⟩
    -- the log store frames its changes in no other way
    rintro s s' rfl hnext hrun
    obtain ⟨-, -, -, bs, hlogged, hfile⟩ := LogStore.logThenApply_eq_ok hrun
    rw [hnext, hframe] at hlogged
    rw [hfile, Except.ok.inj hlogged]
  · intro hlong
    have hrefused : frame limit e = .error (.entryRefused record.length limit) :=
      frame_eq_error_iff.2 ⟨.inl hlong, rfl⟩
    refine ⟨hrefused, ?_⟩
    rintro s rfl hnext
    rcases hrun : LogStore.logThenApply e.mutation s with ⟨cause | _, s'⟩
    · -- whatever the cause is, a change that fails leaves the store as it is
      obtain ⟨rfl, -⟩ := LogStore.logThenApply_eq_error_iff.1 hrun
      exact ⟨cause, rfl⟩
    · obtain ⟨-, -, -, bs, hlogged, -⟩ := LogStore.logThenApply_eq_ok hrun
      rw [hnext, hrefused] at hlogged
      cases hlogged

/-- A value of two bytes, one of which takes two bytes in the record, in front of two bytes that are not of
the entry; and the same entry under a limit that its record exceeds. -/
theorem frame_round_trip_of_put :
    let e : LogEntry := ⟨300, .put "p" [0x2C] [0xC8, 7]⟩
    e.seq < 0x10000000000000000 ∧ (format.write e).length = 18 ∧
      (∃ bs, frame 18 e = .ok bs ∧ bs.length = 26 ∧
        readEntry 18 (bs ++ [9, 9]) = .entry e 26 ∧
        ∃ c', readEntryAt 18 (Cursor.ofBytes (bs ++ [9, 9])) = (.entry e 26, c') ∧
          c'.rest = [9, 9]) ∧
      frame 17 e = .error (.entryRefused 18 17) := by
  intro e
  have hseq : e.seq < 0x10000000000000000 := by decide
  have hrecord : (format.write e).length = 18 := by decide +kernel
  obtain ⟨bs, hframe, hlength, hread, hstream, -⟩ :=
    (frame_round_trip 18 e hseq).1 (by omega) (by omega)
  obtain ⟨hrefused, -⟩ := (frame_round_trip 17 e hseq).2 (by omega)
  have hbytes : bs.length = 26 := by rw [hlength, hrecord]; rfl
  have hentry := hread [9, 9]
  have hbehind := hstream (Cursor.ofBytes (bs ++ [9, 9])) [9, 9] rfl
  rw [hbytes] at hentry hbehind
  rw [hrecord] at hrefused
  exact ⟨hseq, hrecord, ⟨bs, hframe, hbytes, hentry, hbehind⟩, hrefused⟩

end LogEntry

end AppendLists
