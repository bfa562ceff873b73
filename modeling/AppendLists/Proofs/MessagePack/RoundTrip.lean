import AppendLists.MessagePack.Format
import AppendLists.Proofs.Text.Utf8

namespace AppendLists

namespace MessagePack

/-!
# Packed values read back

What the writers produce is taken off the front again by the readers, whatever follows it. The
lengths and counts of the format have 32 bits and its numbers 64, so values up to those are covered.

* `Reader.Reads`: a reader takes certain bytes off the front as a value;
* `reads_arrayHeader`, `reads_mapHeader`, `reads_stringHeader`, `reads_writeNat`: markers;
* `reads_writeString`, `reads_seq`, `reads_byteSeq`: texts, sequences and byte strings;
* `reads_record₂`, `reads_record₃`, `reads_variantWith`: records and variants;
* `reads_mergeOperator`: optional merge operators.
-/

variable {α β γ : Type}

/-- The reader takes `bs` off the front of anything, as the value `a`. -/
def Reader.Reads (r : Reader α) (bs : Bytes) (a : α) : Prop :=
  ∀ tail, r (bs ++ tail) = some (a, tail)

/-! ### Combining readers -/

/-- What is made of a value is made of the value that is read back. -/
theorem Reader.Reads.mapValue {r : Reader α} {bs : Bytes} {a : α} (h : r.Reads bs a) (f : α → β) :
    (r.mapValue f).Reads bs (f a) := by
  intro tail
  rw [Reader.mapValue, h tail]
  rfl

/-- A key and a value are read back one behind the other. -/
theorem reads_pair {key : Reader α} {value : Reader β} {bs cs : Bytes} {a : α} {b : β}
    (ha : key.Reads bs a) (hb : value.Reads cs b) :
    (readPair key value).Reads (bs ++ cs) (a, b) := by
  intro tail
  rw [List.append_assoc, readPair, ha]
  exact hb.mapValue (fun v => (a, v)) tail

/-- So are any number of values. -/
theorem reads_many {value : Reader α} {write : α → Bytes} {as : List α}
    (h : ∀ a ∈ as, value.Reads (write a) a) :
    (readMany value as.length).Reads (as.map write).flatten as := by
  induction as with
  | nil => exact fun tail => rfl
  | cons a as ih =>
    obtain ⟨ha, has⟩ := List.forall_mem_cons.1 h
    intro tail
    rw [List.map_cons, List.flatten_cons, List.append_assoc, List.length_cons, readMany, ha]
    simp only [ih has tail]

/-! ### Numbers of fixed width -/

/-- Raw bytes are read in front of anything. -/
theorem readRaw_append (bs tail : Bytes) : readRaw bs.length (bs ++ tail) = some (bs, tail) := by
  rw [readRaw, if_neg (by simp), List.take_left, List.drop_left]

/-- A number in so many bytes is read back if it fits them. -/
theorem reads_ofNatBE {width n : Nat} (h : n < Bytes.capacity width) :
    (readNatBE width).Reads (Bytes.ofNatBE width n) n := by
  intro tail
  have hraw := readRaw_append (Bytes.ofNatBE width n) tail
  rw [Bytes.length_ofNatBE] at hraw
  rw [readNatBE, hraw]
  simp only [Option.map_some, Bytes.toNatBE_ofNatBE, Nat.mod_eq_of_lt h]

/-- A marker with a number behind it. -/
theorem reads_marker {marker : UInt8} {width n : Nat} {head : Nat → Head}
    (hmarker : ∀ rest, readHead (marker :: rest) = (readNatBE width).mapValue head rest)
    (h : n < Bytes.capacity width) :
    Reader.Reads readHead (marker :: Bytes.ofNatBE width n) (head n) := by
  intro tail
  rw [List.cons_append, hmarker]
  exact (reads_ofNatBE h).mapValue head tail

/-! ### Markers -/

/-- Before an array of so many elements. -/
theorem reads_arrayHeader {n : Nat} (h : n < 0x100000000) :
    Reader.Reads readHead (arrayHeader n) (.array n) := by
  unfold arrayHeader
  split
  · -- a small count is part of the marker
    intro tail
    have hb : (UInt8.ofNat (0x90 + n)).toNat = 0x90 + n := by simp; omega
    rw [List.singleton_append, readHead,
      if_neg (Bytes.not_lt_of_toNat (by show 128 ≤ _; omega)),
      if_neg (Bytes.not_lt_of_toNat (by show 144 ≤ _; omega)),
      if_pos (Bytes.lt_of_toNat (by show _ < 160; omega)), hb, Nat.add_sub_cancel_left]
  · split
    · case isTrue hlt => exact reads_marker (fun _ => rfl) hlt
    · exact reads_marker (fun _ => rfl) h

/-- Before a map of so many keys and values. -/
theorem reads_mapHeader {n : Nat} (h : n < 0x100000000) :
    Reader.Reads readHead (mapHeader n) (.map n) := by
  unfold mapHeader
  split
  · intro tail
    have hb : (UInt8.ofNat (0x80 + n)).toNat = 0x80 + n := by simp; omega
    rw [List.singleton_append, readHead,
      if_neg (Bytes.not_lt_of_toNat (by show 128 ≤ _; omega)),
      if_pos (Bytes.lt_of_toNat (by show _ < 144; omega)), hb, Nat.add_sub_cancel_left]
  · split
    · case isTrue hlt => exact reads_marker (fun _ => rfl) hlt
    · exact reads_marker (fun _ => rfl) h

/-- Before a text of so many bytes. -/
theorem reads_stringHeader {n : Nat} (h : n < 0x100000000) :
    Reader.Reads readHead (stringHeader n) (.str n) := by
  unfold stringHeader
  split
  · intro tail
    have hb : (UInt8.ofNat (0xA0 + n)).toNat = 0xA0 + n := by simp; omega
    rw [List.singleton_append, readHead,
      if_neg (Bytes.not_lt_of_toNat (by show 128 ≤ _; omega)),
      if_neg (Bytes.not_lt_of_toNat (by show 144 ≤ _; omega)),
      if_neg (Bytes.not_lt_of_toNat (by show 160 ≤ _; omega)),
      if_pos (Bytes.lt_of_toNat (by show _ < 192; omega)), hb, Nat.add_sub_cancel_left]
  · split
    · case isTrue hlt => exact reads_marker (fun _ => rfl) hlt
    · split
      · case isTrue hlt => exact reads_marker (fun _ => rfl) hlt
      · exact reads_marker (fun _ => rfl) h

/-- A number is read off the marker that it is written with, the shortest that holds it. -/
theorem reads_writeNat {n : Nat} (h : n < 0x10000000000000000) :
    Reader.Reads readHead (writeNat n) (.unsigned n) := by
  unfold writeNat
  split
  · -- a small number is its own marker
    intro tail
    have hb : (UInt8.ofNat n).toNat = n := by simp; omega
    rw [List.singleton_append, readHead, if_pos (Bytes.lt_of_toNat (by show _ < 128; omega)), hb]
  · split
    · case isTrue hlt => exact reads_marker (fun _ => rfl) hlt
    · split
      · case isTrue hlt => exact reads_marker (fun _ => rfl) hlt
      · split
        · case isTrue hlt => exact reads_marker (fun _ => rfl) hlt
        · exact reads_marker (fun _ => rfl) h

/-! ### Scalars -/

/-- It is accepted below its bound. -/
theorem reads_readNat {n bound : Nat} (hn : n < bound) (h : n < 0x10000000000000000) :
    (readNat bound).Reads (writeNat n) n := by
  intro tail
  have hint : readInt 0 (bound - 1) (writeNat n ++ tail) = some ((n : Int), tail) := by
    rw [readInt, reads_writeNat h]
    exact if_pos (by omega)
  rw [readNat, Reader.mapValue, hint]
  rfl

theorem reads_uint8 (b : UInt8) : Format.uint8.read.Reads (Format.uint8.write b) b := by
  have hb : b.toNat < 0x100 := b.toNat_lt
  have h := (reads_readNat hb (by omega)).mapValue UInt8.ofNat
  rwa [UInt8.ofNat_toNat] at h

/-- A text whose bytes the length can count. -/
theorem reads_writeString {s : String} (h : (Utf8.encode s).length < 0x100000000) :
    Reader.Reads readString (writeString s) s := by
  intro tail
  rw [writeString, List.append_assoc, readString, reads_stringHeader h]
  simp only [readRaw_append, Utf8.decode_encode]

/-- A sequence that the count can count. -/
theorem reads_seq {value : Format α} {ofByte : UInt8 → Option α} {as : List α}
    (h : as.length < 0x100000000) (has : ∀ a ∈ as, value.read.Reads (value.write a) a) :
    (Format.seq value ofByte).read.Reads ((Format.seq value ofByte).write as) as := by
  intro tail
  have hmany := reads_many has tail
  show readSeq value.read ofByte (writeArray (as.map value.write) ++ tail) = _
  rw [writeArray, List.append_assoc, List.length_map, readSeq, reads_arrayHeader h]
  exact hmany

/-- A byte string is read back as it is. -/
theorem reads_byteSeq {bs : Bytes} (h : bs.length < 0x100000000) :
    Format.byteSeq.read.Reads (Format.byteSeq.write bs) bs :=
  reads_seq h fun b _ => reads_uint8 b

/-! ### Records and variants -/

/-- A record is written as an array of its fields and read back from it. -/
theorem reads_record₁ {depth : Nat} {first : RecordField α} {bs : Bytes} {a : α}
    (ha : first.read.Reads bs a) : (readRecord₁ depth first).Reads (writeArray [bs]) a := by
  intro tail
  rw [writeArray, List.append_assoc, readRecord₁, reads_arrayHeader (by simp)]
  simpa using ha tail

theorem reads_record₂ {depth : Nat} {first : RecordField α} {second : RecordField β}
    {bs cs : Bytes} {a : α} {b : β} (ha : first.read.Reads bs a) (hb : second.read.Reads cs b) :
    (readRecord₂ depth first second).Reads (writeArray [bs, cs]) (a, b) := by
  intro tail
  rw [writeArray, List.append_assoc, readRecord₂, reads_arrayHeader (by simp)]
  simpa using reads_pair ha hb tail

theorem reads_record₃ {depth : Nat} {first : RecordField α} {second : RecordField β}
    {third : RecordField γ} {bs cs ds : Bytes} {a : α} {b : β} {c : γ}
    (ha : first.read.Reads bs a) (hb : second.read.Reads cs b) (hc : third.read.Reads ds c) :
    (readRecord₃ depth first second third).Reads (writeArray [bs, cs, ds]) (a, b, c) := by
  intro tail
  rw [writeArray, List.append_assoc, readRecord₃, reads_arrayHeader (by simp)]
  simpa using reads_pair ha (reads_pair hb hc) tail

/-- Names are compared by their bytes. -/
theorem encode_beq_encode (s t : String) : (Utf8.encode s == Utf8.encode t) = (s == t) := by
  by_cases h : s = t
  · simp [h]
  · have hne : Utf8.encode s ≠ Utf8.encode t := fun heq => h (Utf8.encode_inj heq)
    rw [beq_false_of_ne hne, beq_false_of_ne h]

/-- The name of a variant, given by its place among the names. -/
theorem reads_variant {names : List String} {name : String} {i : Nat}
    (hi : (names.findIdx? fun other => other == name) = some i)
    (hlen : (Utf8.encode name).length < 0x100000000) :
    (readVariant names).Reads (writeString name) i := by
  intro tail
  -- a name is looked up among the bytes of the names, not among the names
  have hkey : readKey names (writeString name ++ tail) = some (some i, tail) := by
    rw [writeString, List.append_assoc, readKey, reads_stringHeader hlen]
    simp only [Reader.mapValue, readRaw_append, Option.map_some, encode_beq_encode, hi]
  rw [readVariant, hkey]

/-- A variant is a map of one pair, and its name says how to read what it holds. -/
theorem reads_variantWith (names : List String) (name : String) {i : Nat}
    {content : Nat → Reader α} {bs : Bytes} {a : α}
    (hi : (names.findIdx? fun other => other == name) = some i)
    (hlen : (Utf8.encode name).length < 0x100000000) (ha : (content i).Reads bs a) :
    (Format.readVariantWith names content).Reads (writeMap [(writeString name, bs)]) a := by
  intro tail
  rw [writeMap, List.append_assoc, Format.readVariantWith, reads_mapHeader (by simp)]
  simp only [List.length_cons, List.length_nil, List.map_cons, List.map_nil, List.flatten_cons,
    List.flatten_nil, List.append_nil, List.append_assoc, reads_variant hi hlen _]
  exact ha tail

/-! ### Merge operators -/

/-- An operator is read back at any depth. -/
theorem reads_mergeOperatorAt (depth : Nat) (op : MergeOperator) :
    (Format.mergeOperatorAt depth).read.Reads ((Format.mergeOperatorAt depth).write op) op := by
  obtain ⟨d⟩ := op
  apply reads_variantWith ["StringAppend"] "StringAppend" (i := 0) rfl (by decide)
  apply Reader.Reads.mapValue
  intro tail
  have hrecord : (readRecord₁ (depth - 1)
      (RecordField.required "delimiter" Format.uint8.read)).Reads
        (writeArray [Format.uint8.write d]) d := reads_record₁ (reads_uint8 d)
  rw [readContent₁, writeArray, List.append_assoc, reads_arrayHeader (by simp), ← List.append_assoc,
    ← writeArray]
  exact hrecord tail

/-- A merge operator that may be absent, also where less depth is left. -/
theorem reads_mergeOperator (depth : Nat) (op : Option MergeOperator) :
    (readOption (Format.mergeOperatorAt depth).read).Reads (Format.mergeOperator.write op) op := by
  intro tail
  cases op with
  | none => rfl
  | some op =>
    have hop := (reads_mergeOperatorAt depth op).mapValue some tail
    obtain ⟨d⟩ := op
    exact hop

end MessagePack

end AppendLists
