import AppendLists.Proofs.Checksum
import AppendLists.Proofs.Log.EntryLimit
import AppendLists.Proofs.Log.History

namespace AppendLists

/-!
# Damaged records

A byte that is changed behind the length of an entry, in its record or its checksum, leaves the end of
the entry where it was, and the checksum always tells. So what becomes of the file depends on the
place of the entry alone: the last one is dropped, as if it had never been written, and in front of
others the damage is corruption.

* `readEntry_mismatch`, `readEntry_set`: what is read of an entry with one byte changed;
* `Logged.around`: a log, split around one of its entries;
* `LogStore.open_at_changed_byte`: what opens on a log with one byte of this entry changed;
* `LogStore.Surviving.damaged_record`: what a log comes to with one byte changed;
* `LogStore.damaged_last_record_drops_entry`: a log that loses its last entry.
-/

/-! ### One byte of an entry -/

/-- A record between its length and the checksum of another one is damaged. -/
theorem readEntry_mismatch {limit : Nat} {record sum : Bytes} (hlimit : record.length ≤ limit)
    (hlength : record.length < 0x100000000) (hsum : sum.length = 4)
    (hne : UInt32.ofNat (Bytes.toNatLE sum) ≠ crc32 record) (tail : Bytes) :
    readEntry limit (Bytes.ofNatLE 4 record.length ++ (record ++ sum) ++ tail)
      = .damaged (record.length + entryOverhead)
          (.checksumMismatch (UInt32.ofNat (Bytes.toNatLE sum)) (crc32 record)) := by
  have hwhole : ¬ (record ++ (sum ++ tail)).length < record.length + 4 := by
    simp only [List.length_append]
    omega
  rw [List.append_assoc, List.append_assoc, readEntry_announced hlength, readAnnounced,
    if_neg (Nat.not_lt_of_le hlimit), if_neg hwhole]
  simp only
  rw [List.drop_left, List.take_left, List.take_left' hsum, if_pos hne]

/-- A checksum with one of its bytes changed is another one. -/
theorem ofNat_set_ofNatLE_ne {sum : UInt32} {place : Nat} (hplace : place < 4) {byte : UInt8}
    (h : (Bytes.ofNatLE 4 sum.toNat)[place]? ≠ some byte) :
    UInt32.ofNat (Bytes.toNatLE ((Bytes.ofNatLE 4 sum.toNat).set place byte)) ≠ sum := by
  intro heq
  have hlength : ((Bytes.ofNatLE 4 sum.toNat).set place byte).length = 4 := by simp
  have hlt := Bytes.toNatLE_lt ((Bytes.ofNatLE 4 sum.toNat).set place byte)
  have hread := Bytes.ofNatLE_toNatLE ((Bytes.ofNatLE 4 sum.toNat).set place byte)
  rw [hlength] at hlt hread
  -- four bytes are those of their number, so the changed ones would be the ones before
  have hsame := congrArg UInt32.toNat heq
  rw [UInt32.toNat_ofNat_of_lt' hlt] at hsame
  rw [hsame] at hread
  apply h
  rw [hread, List.getElem?_set_self (by simpa using hplace)]

/-- An entry with one byte changed behind its length is damaged, and as long as it was. -/
theorem readEntry_set {limit : Nat} {e : LogEntry} {bs : Bytes}
    (hframe : LogEntry.frame limit e = .ok bs) {place : Nat} (hrecord : 4 ≤ place)
    (hplace : place < bs.length) {byte : UInt8} (hbyte : bs[place]? ≠ some byte) (tail : Bytes) :
    ∃ expected got, expected ≠ got ∧
      readEntry limit (bs.set place byte ++ tail)
        = .damaged (bs.set place byte).length (.checksumMismatch expected got) := by
  obtain ⟨hlimit, hlength, rfl⟩ := LogEntry.frame_eq_ok_iff.1 hframe
  generalize LogEntry.format.write e = record at hlimit hlength hplace hbyte ⊢
  obtain ⟨place, rfl⟩ := Nat.exists_eq_add_of_le hrecord
  rw [LogEntry.length_enclose, entryOverhead] at hplace
  rw [List.length_set, LogEntry.length_enclose]
  have hfour : (Bytes.ofNatLE 4 record.length).length = 4 := Bytes.length_ofNatLE ..
  rw [LogEntry.enclose, List.append_assoc, List.getElem?_append_right (by omega), hfour,
    Nat.add_sub_cancel_left] at hbyte
  rw [LogEntry.enclose, List.append_assoc, List.set_append_right _ _ (by omega), hfour,
    Nat.add_sub_cancel_left]
  by_cases hinside : place < record.length
  · -- in the record, which then has another checksum
    rw [List.getElem?_append_left hinside] at hbyte
    have hne : UInt32.ofNat (Bytes.toNatLE (Bytes.ofNatLE 4 (crc32 record).toNat))
        ≠ crc32 (record.set place byte) := by
      rw [ofNat_toNatLE_ofNatLE]
      exact (crc32_set_ne hinside hbyte).symm
    have hsame : (record.set place byte).length = record.length := List.length_set
    rw [← hsame] at hlimit hlength ⊢
    rw [List.set_append_left _ _ hinside]
    exact ⟨_, _, hne, readEntry_mismatch hlimit hlength (Bytes.length_ofNatLE ..) hne tail⟩
  · -- in the checksum
    have hbehind := Nat.le_of_not_lt hinside
    rw [List.getElem?_append_right hbehind] at hbyte
    rw [List.set_append_right _ _ hbehind]
    have hne := ofNat_set_ofNatLE_ne (by omega) hbyte
    exact ⟨_, _, hne, readEntry_mismatch hlimit hlength (by simp) hne tail⟩

/-! ### One entry of a log -/

/-- Only a log of no changes is empty. -/
theorem Logged.eq_nil_iff {limit seq : Nat} {ms : List Mutation} {log : Bytes}
    (h : Logged limit seq ms log) : log = [] ↔ ms = [] := by
  cases h with
  | nil => simp
  | cons hframe hrest =>
    obtain ⟨-, -, rfl⟩ := LogEntry.frame_eq_ok_iff.1 hframe
    simp [LogEntry.enclose, Bytes.ofNatLE]

/-- The first entries are those of the first changes. -/
theorem take_numbered (seq : Nat) (ms : List Mutation) (count : Nat) :
    (numbered seq ms).take count = numbered seq (ms.take count) := by
  induction ms generalizing seq count with
  | nil => simp [numbered]
  | cons m ms ih =>
    cases count with
    | zero => rfl
    | succ count => rw [numbered, List.take_succ_cons, List.take_succ_cons, numbered, ih]

/-- The entries of a file that is the log of some changes. -/
theorem Logged.fileEntries_eq {limit : Nat} {ms : List Mutation} {log : Bytes}
    (h : Logged limit 0 ms log) (hseq : ms.length < 0x10000000000000000) :
    fileEntries limit (logHeader ++ log) = numbered 0 ms := by
  have hleading := h.leadingEntries_append (by omega) (.inl (readEntry_nil limit))
  rwa [fileEntries, List.drop_left, ← List.append_nil log]

/-- A log is what was logged before a change, its entry between two boundaries, and what was logged
after it. -/
theorem Logged.around {limit : Nat} {before after : List Mutation} {m : Mutation} {log : Bytes}
    (h : Logged limit 0 (before ++ m :: after) log)
    (hseq : (before ++ m :: after).length < 0x10000000000000000) :
    ∃ front bs back, logHeader ++ log = logHeader ++ front ++ (bs ++ back) ∧
      Logged limit 0 before front ∧ LogEntry.frame limit ⟨before.length + 1, m⟩ = .ok bs ∧
      (back = [] ↔ after = []) ∧
      (boundaries limit (logHeader ++ log))[before.length]? = some (logHeader ++ front).length ∧
      (boundaries limit (logHeader ++ log))[before.length + 1]?
        = some ((logHeader ++ front).length + bs.length) := by
  rw [List.length_append, List.length_cons] at hseq
  obtain ⟨front, rest, rfl, hbefore, hrest⟩ := h.split
  rw [Nat.zero_add] at hrest
  cases hrest with
  | @cons _ _ _ bs back hframe hafter =>
    -- the entry stands between the boundary behind the front and the next one
    have hlayout : logHeader ++ (front ++ (bs ++ back)) = logHeader ++ front ++ (bs ++ back) :=
      (List.append_assoc ..).symm
    have hthrough := hbefore.concat (by rwa [Nat.zero_add])
    have hlength : (before ++ [m]).length = before.length + 1 := List.length_append
    have hstop := hthrough.getElem?_boundaries (by omega) back
    rw [hlength, ← List.append_assoc, List.append_assoc (logHeader ++ front),
      List.length_append] at hstop
    refine ⟨front, bs, back, hlayout, hbefore, hframe, hafter.eq_nil_iff, ?_, ?_⟩
    · rw [hlayout, hbefore.getElem?_boundaries (by omega)]
    · rw [hlayout, hstop]

namespace LogStore

variable {config : StoreConfig} {s : LogStore} {n : Nat} {v : Volume}

/-- A file with one byte of an entry changed, behind its length: in front of anything the damage is
corruption, and at the end the entry is dropped. -/
theorem open_at_changed_byte (hvalid : config.validate = .ok ()) (hheld : v.held = false)
    {before : List Mutation} {m : Mutation} {front bs back : Bytes}
    (hbefore : Logged config.maxEntrySize 0 before front)
    (hframe : LogEntry.frame config.maxEntrySize ⟨before.length + 1, m⟩ = .ok bs)
    (hseq : before.length < 0x10000000000000000) {memory : MemoryStore}
    (hall : Mutation.applyAll before MemoryStore.empty = .ok memory) {place : Nat} {byte : UInt8}
    (hrecord : 4 ≤ place) (hplace : place < bs.length)
    (hbyte : (logHeader ++ front ++ (bs ++ back))[(logHeader ++ front).length + place]? ≠ some byte)
    (hlog : v.log = some ((logHeader ++ front ++ (bs ++ back)).set
      ((logHeader ++ front).length + place) byte)) :
    (back ≠ [] → ∃ expected got, expected ≠ got ∧
      openVolume config (some v)
        = (.error (.damagedEntry (logHeader ++ front).length back.length
            (.checksumMismatch expected got)), some { v with lockFile := true })) ∧
      (back = [] → OpensTo config v (numbered 0 before) (logHeader ++ front)) := by
  -- the place is one of the entry, so the file is the same before it and behind it
  rw [List.getElem?_append_right (Nat.le_add_right ..), Nat.add_sub_cancel_left,
    List.getElem?_append_left hplace] at hbyte
  rw [List.set_append_right _ _ (Nat.le_add_right ..), Nat.add_sub_cancel_left,
    List.set_append_left _ _ hplace] at hlog
  obtain ⟨expected, got, hne, hread⟩ := readEntry_set hframe hrecord hplace hbyte back
  obtain ⟨herror, hcut⟩ := open_at_damage hvalid hheld hlog hbefore hseq hall hread
  exact ⟨fun hback => ⟨expected, got, hne, herror hback⟩, hcut⟩

/-- **Damage behind a length is always noticed, and its place decides.** The log of a store that has
lived through anything consists of entries alone. If a single byte of the record or of the checksum of
one of them is changed, then the file fails to open if another entry stands behind it, with an error
that names this one and two checksums that differ, and the file is left as it was. If it is the last
one, the file opens with the changes of the entries before it, and is cut off where it starts. -/
theorem Surviving.damaged_record (hvalid : config.validate = .ok ()) (h : Surviving config n s)
    (hn : n < 0x10000000000000000) :
    let es := fileEntries config.maxEntrySize s.file
    let ends := boundaries config.maxEntrySize s.file
    ends[es.length]? = some s.file.length ∧
      ∀ i < es.length, ∃ offset stop, ends[i]? = some offset ∧ ends[i + 1]? = some stop ∧
        ∀ (place : Nat) (byte : UInt8) (v : Volume), offset + 4 ≤ place → place < stop →
          s.file[place]? ≠ some byte → v.log = some (s.file.set place byte) → v.held = false →
          (i + 1 < es.length → ∃ expected got, expected ≠ got ∧
            openVolume config (some v)
              = (.error (.damagedEntry offset (s.file.length - stop)
                  (.checksumMismatch expected got)), some { v with lockFile := true })) ∧
          (i + 1 = es.length → OpensTo config v (es.take i) (s.file.take offset)) := by
  obtain ⟨ms, hlegible, rfl⟩ := h.legible hvalid hn
  have hcount := hlegible.count
  obtain ⟨memory, hall, -⟩ := hlegible.replays
  obtain ⟨log, hfile, hlogged⟩ := hlegible.logged
  change s.file = _ at hfile
  rw [hfile, hlogged.fileEntries_eq (by omega)]
  simp only [length_numbered]
  constructor
  · have hends := hlogged.getElem?_boundaries (by omega) []
    rwa [List.append_nil] at hends
  · intro i hi
    obtain ⟨before, m, after, rfl, rfl⟩ :
        ∃ before m after, ms = before ++ m :: after ∧ before.length = i :=
      ⟨ms.take i, ms[i], ms.drop (i + 1), by rw [List.getElem_cons_drop, List.take_append_drop],
        List.length_take_of_le (Nat.le_of_lt hi)⟩
    obtain ⟨front, bs, back, hlayout, hbefore, hframe, hback, hoffset, hstop⟩ :=
      hlogged.around (by omega)
    obtain ⟨memory₁, hall₁, -⟩ := Mutation.applyAll_of_append hall
    rw [List.length_append, List.length_cons] at hcount
    refine ⟨_, _, hoffset, hstop, ?_⟩
    rw [hlayout]
    intro place byte v hrecord hplace hbyte hlog hheld
    obtain ⟨place, rfl⟩ := Nat.exists_eq_add_of_le (Nat.le_of_add_right_le hrecord)
    obtain ⟨herror, hcut⟩ := open_at_changed_byte hvalid hheld hbefore hframe (by omega) hall₁
      (Nat.le_of_add_le_add_left hrecord) (Nat.lt_of_add_lt_add_left hplace) hbyte hlog
    have htotal : (logHeader ++ front ++ (bs ++ back)).length
        = (logHeader ++ front).length + bs.length + back.length := by
      simp only [List.length_append]
      omega
    rw [htotal, Nat.add_sub_cancel_left, List.length_append, List.length_cons]
    -- the entry is the last one if and only if nothing stands behind it
    constructor
    · intro hbehind
      apply herror
      intro hnil
      rw [hback.1 hnil] at hbehind
      simp at hbehind
    · intro hlast
      have hnil : after = [] := List.eq_nil_of_length_eq_zero (by omega)
      rw [List.take_left, take_numbered, List.take_left]
      exact hcut (hback.2 hnil)

/-- The log of three changes, with one bit of the last checksum turned over: the third change is gone,
and the file ends where its entry started. -/
theorem damaged_last_record_drops_entry :
    let config : StoreConfig := ⟨"state", 2, true, 64⟩
    let changes : List Mutation := [.create "p" none, .put "p" [1] [10], .put "p" [2] [20]]
    let s : LogStore := changes.foldl (fun s m => (logThenApply m s).2)
      (onFile config logHeader MemoryStore.empty 0 false)
    let damaged := s.file.set 79 (s.file[79]! ^^^ 1)
    config.validate = .ok () ∧ Surviving config 3 s ∧
      fileEntries config.maxEntrySize s.file = numbered 0 changes ∧
      boundaries config.maxEntrySize s.file = [5, 36, 58, 80] ∧
      OpensTo config ⟨some damaged, true, false, false⟩ (numbered 0 (changes.take 2))
        (s.file.take 58) := by
  intro config changes s damaged
  have hvalid : config.validate = .ok () := rfl
  have hs : Surviving config 3 s :=
    (((Surviving.opened rfl).step (.change _ _)).step (.change _ _)).step (.change _ _)
  have hentries : fileEntries config.maxEntrySize s.file = numbered 0 changes := by decide +kernel
  have hends : boundaries config.maxEntrySize s.file = [5, 36, 58, 80] := by decide +kernel
  have hbyte : s.file[79]? ≠ some (s.file[79]! ^^^ 1) := by decide +kernel
  obtain ⟨-, hplaces⟩ := hs.damaged_record hvalid (by decide)
  obtain ⟨offset, stop, hoffset, hstop, hdamage⟩ := hplaces 2 (by rw [hentries]; decide)
  rw [hends] at hoffset hstop
  obtain rfl : 58 = offset := Option.some.inj hoffset
  obtain rfl : 80 = stop := Option.some.inj hstop
  have hcut := (hdamage 79 _ ⟨some damaged, true, false, false⟩ (by decide) (by decide) hbyte rfl
    rfl).2 (by rw [hentries]; rfl)
  rw [hentries] at hcut
  exact ⟨hvalid, hs, hentries, hends, hcut⟩

end LogStore

end AppendLists
