import AppendLists.Proofs.MessagePack.RoundTrip
import AppendLists.Store.Log.Entry

namespace AppendLists

open MessagePack

/-!
# Log entries read back

An entry that was framed is read back, whatever stands behind it in the log. The record is short
enough for its length to fit four bytes, and so is everything in it.

* `Mutation.reads_format`, `LogEntry.reads_format`: the packed forms;
* `readEntry_enclose`: an entry between its length and its checksum;
* `readEntry_frame`: a framed entry.
-/

/-! ### Parts of a short record -/

theorem length_le_byteSeq (bs : Bytes) : bs.length ≤ (Format.byteSeq.write bs).length := by
  have hpos : ∀ b : UInt8, 1 ≤ (Format.uint8.write b).length := by
    intro b
    show 1 ≤ (writeNat b.toNat).length
    unfold writeNat
    repeat' split
    all_goals simp
  have hsum : bs.length ≤ (bs.map Format.uint8.write).flatten.length := by
    induction bs with
    | nil => simp
    | cons b bs ih =>
      have := hpos b
      simp only [List.map_cons, List.flatten_cons, List.length_append, List.length_cons]
      omega
  show bs.length ≤ (writeArray (bs.map Format.uint8.write)).length
  rw [writeArray, List.length_append]
  omega

/-- The fields of a variant are shorter than the variant. -/
theorem length_lt_of_mem_fields {tag field : Bytes} {fields : List Bytes} (hfield : field ∈ fields)
    (h : (writeMap [(tag, writeArray fields)]).length < 0x100000000) :
    field.length < 0x100000000 := by
  have hle : field.length ≤ fields.flatten.length :=
    (List.sublist_flatten_of_mem hfield).length_le
  simp only [writeMap, writeArray, List.map_cons, List.map_nil, List.flatten_cons,
    List.flatten_nil, List.length_append] at h
  omega

/-- A text is read back from a field of a short variant. -/
theorem reads_textField {tag : Bytes} {s : String} {fields : List Bytes}
    (hfield : writeString s ∈ fields)
    (h : (writeMap [(tag, writeArray fields)]).length < 0x100000000) :
    Reader.Reads readString (writeString s) s := by
  apply reads_writeString
  have hlt := length_lt_of_mem_fields hfield h
  rw [writeString, List.length_append] at hlt
  omega

/-- A byte string is read back from a field of a short variant. -/
theorem reads_bytesField {tag bs : Bytes} {fields : List Bytes}
    (hfield : Format.byteSeq.write bs ∈ fields)
    (h : (writeMap [(tag, writeArray fields)]).length < 0x100000000) :
    Format.byteSeq.read.Reads (Format.byteSeq.write bs) bs :=
  reads_byteSeq (Nat.lt_of_le_of_lt (length_le_byteSeq bs) (length_lt_of_mem_fields hfield h))

/-! ### The packed forms -/

/-- A change whose packed form is short enough is read back. -/
theorem Mutation.reads_format {m : Mutation} (h : (Mutation.format.write m).length < 0x100000000) :
    Mutation.format.read.Reads (Mutation.format.write m) m := by
  cases m with
  | create name op =>
    -- a name and its operator, in a record of two fields behind the tag
    apply reads_variantWith tags "CreatePartition" (i := 0) rfl (by decide)
    unfold readFields
    apply Reader.Reads.mapValue (a := (name, op))
    exact reads_record₂ (reads_textField (by simp) h) (reads_mergeOperator fieldDepth op)
  | put name key value =>
    apply reads_variantWith tags "Put" (i := 1) rfl (by decide)
    unfold readFields
    apply Reader.Reads.mapValue (a := (name, key, value))
    exact reads_record₃ (reads_textField (by simp) h) (reads_bytesField (by simp) h)
      (reads_bytesField (by simp) h)
  | merge name key operand =>
    apply reads_variantWith tags "Merge" (i := 2) rfl (by decide)
    unfold readFields
    apply Reader.Reads.mapValue (a := (name, key, operand))
    exact reads_record₃ (reads_textField (by simp) h) (reads_bytesField (by simp) h)
      (reads_bytesField (by simp) h)
  | delete name key =>
    apply reads_variantWith tags "Delete" (i := 3) rfl (by decide)
    unfold readFields
    apply Reader.Reads.mapValue (a := (name, key))
    exact reads_record₂ (reads_textField (by simp) h) (reads_bytesField (by simp) h)

namespace LogEntry

/-- An entry whose packed form is short enough is read back. -/
theorem reads_format {e : LogEntry} (hseq : e.seq < 0x10000000000000000)
    (h : (format.write e).length < 0x100000000) : format.read.Reads (format.write e) e := by
  -- a part is no longer than the whole
  have hmutation : (Mutation.format.write e.mutation).length < 0x100000000 := by
    have hle : (Mutation.format.write e.mutation).length ≤ (format.write e).length := by
      simp only [format, writeArray, List.length_append, List.flatten_cons, List.flatten_nil]
      omega
    omega
  have hseqRead : (readNat 0x10000000000000000).Reads (writeNat e.seq) e.seq :=
    reads_readNat hseq hseq
  have hrecord : (readRecord₂ (depthLimit - 1)
      (.required "seq" (readNat 0x10000000000000000))
      (.required "operation" Mutation.format.read)).Reads
      (writeArray [writeNat e.seq, Mutation.format.write e.mutation]) (e.seq, e.mutation) :=
    reads_record₂ hseqRead (Mutation.reads_format hmutation)
  have hentry := hrecord.mapValue fun fields => LogEntry.mk fields.1 fields.2
  exact hentry

/-- What `frame` makes of an entry that it does not refuse. -/
theorem frame_eq_ok_iff {limit : Nat} {e : LogEntry} {bs : Bytes} :
    frame limit e = .ok bs
      ↔ (format.write e).length ≤ limit ∧ (format.write e).length < 0x100000000 ∧
        bs = enclose (format.write e) := by
  unfold frame
  simp only
  split
  · case isTrue h => simp [h, eq_comm]
  · case isFalse h =>
    simp only [reduceCtorEq, false_iff]
    rintro ⟨hlimit, hlength, -⟩
    exact h ⟨hlimit, hlength⟩

theorem length_enclose (record : Bytes) :
    (enclose record).length = record.length + entryOverhead := by
  simp only [enclose, List.length_append, Bytes.length_ofNatLE, entryOverhead]
  omega

end LogEntry

/-! ### Entries in a log -/

/-- A checksum is read back from its four bytes. -/
theorem ofNat_toNatLE_ofNatLE (sum : UInt32) :
    UInt32.ofNat (Bytes.toNatLE (Bytes.ofNatLE 4 sum.toNat)) = sum := by
  rw [Bytes.toNatLE_ofNatLE, Nat.mod_eq_of_lt, UInt32.ofNat_toNat]
  exact sum.toNat_lt

/-- A record between its length and its checksum is found whole, and bytes in it behind the entry are
passed over. -/
theorem readEntry_enclose {limit : Nat} {record unread : Bytes} {e : LogEntry}
    (hlimit : record.length ≤ limit) (hlength : record.length < 0x100000000)
    (hread : LogEntry.format.read record = some (e, unread)) (tail : Bytes) :
    readEntry limit (LogEntry.enclose record ++ tail)
      = .entry e (record.length + entryOverhead) := by
  -- four bytes hold the length whole
  have hlen : Bytes.toNatLE (Bytes.ofNatLE 4 record.length) = record.length := by
    rw [Bytes.toNatLE_ofNatLE, Nat.mod_eq_of_lt]
    exact hlength
  -- the three parts are found where the reader looks for them
  have hlayout : LogEntry.enclose record ++ tail
      = Bytes.ofNatLE 4 record.length
        ++ (record ++ (Bytes.ofNatLE 4 (crc32 record).toNat ++ tail)) := by
    simp [LogEntry.enclose]
  have htake : (LogEntry.enclose record ++ tail).take 4 = Bytes.ofNatLE 4 record.length := by
    rw [hlayout]
    exact List.take_left' (by simp)
  have hdrop : (LogEntry.enclose record ++ tail).drop 4
      = record ++ (Bytes.ofNatLE 4 (crc32 record).toNat ++ tail) := by
    rw [hlayout]
    exact List.drop_left' (by simp)
  have hdrop' : (LogEntry.enclose record ++ tail).drop (4 + record.length)
      = Bytes.ofNatLE 4 (crc32 record).toNat ++ tail := by
    rw [← List.drop_drop, hdrop, List.drop_left]
  have htotal : record.length + entryOverhead ≤ (LogEntry.enclose record ++ tail).length := by
    rw [List.length_append, LogEntry.length_enclose]
    omega
  have hne : ¬ (LogEntry.enclose record ++ tail).isEmpty = true := by
    simp [LogEntry.enclose, Bytes.ofNatLE]
  rw [readEntry, if_neg hne, if_neg (by simp only [entryOverhead] at htotal; omega)]
  simp only [htake, hlen, hdrop, hdrop']
  rw [if_neg (by omega), if_neg (by omega), List.take_left, List.take_left' (by simp),
    ofNat_toNatLE_ofNatLE]
  simp only [ne_eq, not_true_eq_false, if_false, hread]

/-- A framed entry is read back, whatever stands behind it, under every limit that is no smaller. -/
theorem readEntry_frame {limit limit' : Nat} {e : LogEntry} {bs : Bytes}
    (hframe : LogEntry.frame limit e = .ok bs) (hseq : e.seq < 0x10000000000000000)
    (hle : limit ≤ limit') (tail : Bytes) :
    readEntry limit' (bs ++ tail) = .entry e bs.length := by
  obtain ⟨hlimit, hlength, rfl⟩ := LogEntry.frame_eq_ok_iff.1 hframe
  rw [LogEntry.length_enclose]
  apply readEntry_enclose (Nat.le_trans hlimit hle) hlength
  have hread := LogEntry.reads_format hseq hlength []
  rwa [List.append_nil] at hread

end AppendLists
