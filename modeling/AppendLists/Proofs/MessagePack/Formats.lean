import AppendLists.Catalogue.Codec
import AppendLists.Proofs.MessagePack.RoundTrip
import AppendLists.Proofs.Table

namespace AppendLists

namespace MessagePack

/-!
# Every packed format read back

The formats of the catalogue, each of which reads what it writes off the front of anything. Numbers
of both signs are covered in every width, sequences and tables up to the lengths that four bytes
count.

* `intHead`, `reads_writeInt`: the marker of an integer of either sign;
* `reads_uint32`, `reads_uint64`, `reads_int32`, `reads_int64`: numbers by their type;
* `reads_optional`: numbers that may be absent;
* `reads_table`: tables;
* `reads_event`, `reads_reading`, `reads_fineReading`, `reads_descriptor`: records;
* `reads_kind`: variants without content.
-/

variable {α β : Type}

/-! ### Integers of either sign -/

/-- A negative integer that `width` bytes hold. -/
theorem reads_twosComplement {width : Nat} {i : Int} (hneg : i < 0)
    (hlow : -(Bytes.capacity width : Int) ≤ 2 * i) :
    (readIntBE width).Reads (twosComplement width i) i := by
  have hmod : i % (Bytes.capacity width : Int) = i + Bytes.capacity width := by
    rw [← Int.add_emod_right, Int.emod_eq_of_lt (by omega) (by omega)]
  intro tail
  have hdigits : (i + (Bytes.capacity width : Int)).toNat < Bytes.capacity width := by omega
  have hsign : ¬ 2 * (i + (Bytes.capacity width : Int)).toNat < Bytes.capacity width := by omega
  rw [twosComplement, hmod, readIntBE, reads_ofNatBE hdigits]
  simp only [Option.map_some, if_neg hsign, Option.some.injEq, Prod.mk.injEq, and_true]
  omega

/-- A marker with a negative integer behind it. -/
theorem reads_signedMarker {marker : UInt8} {width : Nat} {i : Int}
    (hmarker : ∀ rest, readHead (marker :: rest) = (readIntBE width).mapValue .signed rest)
    (hneg : i < 0) (hlow : -(Bytes.capacity width : Int) ≤ 2 * i) :
    Reader.Reads readHead (marker :: twosComplement width i) (.signed i) := by
  intro tail
  rw [List.cons_append, hmarker]
  exact (reads_twosComplement hneg hlow).mapValue Head.signed tail

/-- What the marker of an integer announces. -/
def intHead (i : Int) : Head := if 0 ≤ i then .unsigned i.toNat else .signed i

/-- An integer is read off the marker that it is written with, whichever that is. -/
theorem reads_writeInt {i : Int} (hlow : -0x8000000000000000 ≤ i)
    (hhigh : i < 0x10000000000000000) : Reader.Reads readHead (writeInt i) (intHead i) := by
  unfold writeInt intHead
  by_cases hsign : 0 ≤ i
  · rw [if_pos hsign, if_pos hsign]
    exact reads_writeNat (by omega)
  · rw [if_neg hsign, if_neg hsign]
    have hneg : i < 0 := by omega
    split
    · -- an integer just below zero is its own marker
      case isTrue hsmall =>
      intro tail
      have hmod : i % ((Bytes.capacity 1 : Nat) : Int) = i + 256 := by
        rw [← Int.add_emod_right]
        exact Int.emod_eq_of_lt (by show 0 ≤ i + 256; omega) (by show i + 256 < 256; omega)
      have hb : (UInt8.ofNat (i + 256).toNat).toNat = (i + 256).toNat := by simp; omega
      have hbytes : twosComplement 1 i = [UInt8.ofNat (i + 256).toNat] := by
        rw [twosComplement, hmod]
        rfl
      rw [hbytes, List.singleton_append, readHead,
        if_neg (Bytes.not_lt_of_toNat (by show 128 ≤ _; omega)),
        if_neg (Bytes.not_lt_of_toNat (by show 144 ≤ _; omega)),
        if_neg (Bytes.not_lt_of_toNat (by show 160 ≤ _; omega)),
        if_neg (Bytes.not_lt_of_toNat (by show 192 ≤ _; omega)),
        if_pos (UInt8.le_iff_toNat_le.2 (by show 224 ≤ _; omega)), hb]
      simp only [Option.some.injEq, Prod.mk.injEq, Head.signed.injEq, and_true]
      omega
    · split
      · case isTrue h => exact reads_signedMarker (fun _ => rfl) hneg (by show -256 ≤ _; omega)
      · split
        · case isTrue h => exact reads_signedMarker (fun _ => rfl) hneg (by show -65536 ≤ _; omega)
        · split
          · case isTrue h =>
            exact reads_signedMarker (fun _ => rfl) hneg (by show -4294967296 ≤ _; omega)
          · exact reads_signedMarker (fun _ => rfl) hneg (by show -18446744073709551616 ≤ _; omega)

/-- It is accepted where it lies within the bounds of its type. -/
theorem reads_readInt {low high i : Int} (hlow : low ≤ i) (hhigh : i ≤ high)
    (hmin : -0x8000000000000000 ≤ i) (hmax : i < 0x10000000000000000) :
    (readInt low high).Reads (writeInt i) i := by
  intro tail
  rw [readInt, reads_writeInt hmin hmax, intHead]
  by_cases hsign : 0 ≤ i
  · have hi : (i.toNat : Int) = i := Int.toNat_of_nonneg hsign
    simp only [if_pos hsign, hi, hlow, hhigh, and_self, if_true]
  · simp only [if_neg hsign, hlow, hhigh, and_self, if_true]

/-! ### Numbers by their type -/

/-- The integer types, each with its own bounds. -/
theorem reads_uint32 (n : UInt32) : Format.uint32.read.Reads (Format.uint32.write n) n := by
  have hn : n.toNat < 0x100000000 := n.toNat_lt
  have h := (reads_readNat hn (by omega)).mapValue UInt32.ofNat
  rwa [UInt32.ofNat_toNat] at h

theorem reads_uint64 (n : UInt64) : Format.uint64.read.Reads (Format.uint64.write n) n := by
  have hn : n.toNat < 0x10000000000000000 := n.toNat_lt
  have h := (reads_readNat hn hn).mapValue UInt64.ofNat
  rwa [UInt64.ofNat_toNat] at h

theorem reads_int32 (n : Int32) : Format.int32.read.Reads (Format.int32.write n) n := by
  have hlow : -0x80000000 ≤ n.toInt := n.le_toInt
  have hhigh : n.toInt < 0x80000000 := n.toInt_lt
  have h := (reads_readInt hlow (Int.le_sub_one_of_lt hhigh) (by omega) (by omega)).mapValue
    Int32.ofInt
  rwa [Int32.ofInt_toInt] at h

/-- Integers of 64 bits can be written, with a sign or without. -/
theorem int64_bounds (n : Int64) :
    -0x8000000000000000 ≤ n.toInt ∧ n.toInt < 0x8000000000000000 := ⟨n.le_toInt, n.toInt_lt⟩

theorem reads_int64 (n : Int64) : Format.int64.read.Reads (Format.int64.write n) n := by
  obtain ⟨hlow, hhigh⟩ := int64_bounds n
  have h := (reads_readInt hlow (Int.le_sub_one_of_lt hhigh) hlow (by omega)).mapValue Int64.ofInt
  rwa [Int64.ofInt_toInt] at h

/-! ### Other scalars -/

theorem reads_bool (b : Bool) : Format.bool.read.Reads (Format.bool.write b) b := by
  intro tail
  cases b <;> rfl

theorem reads_unit : Format.unit.read.Reads (Format.unit.write ()) () := fun _ => rfl

/-- A text whose length fits a marker is read back. -/
theorem reads_string {s : String} (h : Utf8.size s < 0x100000000) :
    Format.string.read.Reads (Format.string.write s) s := reads_writeString h

/-! ### Values that may be absent -/

/-- A value that does not begin like an absent one. -/
theorem reads_some {value : Reader α} {bs : Bytes} {a : α} {head : Head}
    (hhead : Reader.Reads readHead bs head) (hnil : head ≠ .nil) (ha : value.Reads bs a) :
    (readOption value).Reads bs (some a) := by
  intro tail
  rw [readOption, hhead tail]
  split
  · case h_1 heq => exact absurd (Prod.mk.inj (Option.some.inj heq)).1 hnil
  · exact ha.mapValue some tail

/-- An absent number is told from every number that is there. -/
theorem reads_optional (n : Option Int64) :
    (Format.option Format.int64).read.Reads ((Format.option Format.int64).write n) n := by
  cases n with
  | none => exact fun _ => rfl
  | some n =>
    obtain ⟨hlow, hhigh⟩ := int64_bounds n
    have hnil : intHead n.toInt ≠ .nil := by
      unfold intHead
      split <;> simp
    exact reads_some (reads_writeInt hlow (by omega)) hnil (reads_int64 n)

/-! ### Sequences and tables -/

/-- Texts whose bytes, and whose number, the lengths can count. -/
theorem reads_stringSeq {ss : List String} (h : ss.length < 0x100000000)
    (hss : ∀ s ∈ ss, Utf8.size s < 0x100000000) :
    Format.stringSeq.read.Reads (Format.stringSeq.write ss) ss :=
  reads_seq h fun s hs => reads_writeString (hss s hs)

/-- A table is read back in order if its keys and values are. -/
theorem reads_table {value : Format α} {t : Table String α} (h : t.size < 0x100000000)
    (hkeys : ∀ k ∈ t.keys, Utf8.size k < 0x100000000)
    (hvalues : ∀ v ∈ t.values, value.read.Reads (value.write v) v) :
    (Format.table value).read.Reads ((Format.table value).write t) t := by
  have hpairs : ∀ p ∈ t.pairs, (readPair readString value.read).Reads
      (writeString p.1 ++ value.write p.2) p := fun p hp =>
    reads_pair (reads_writeString (hkeys _ (List.mem_map_of_mem hp)))
      (hvalues _ (List.mem_map_of_mem hp))
  have hmap : (readMap readString value.read).Reads
      (writeMap (t.pairs.map fun p => (writeString p.1, value.write p.2))) t.pairs := by
    intro tail
    have hmany := reads_many hpairs tail
    have hhead := reads_mapHeader h
    rw [Table.size] at hhead
    rw [writeMap, List.append_assoc, List.length_map, readMap, hhead, List.map_map]
    exact hmany
  have hlisting := hmap.mapValue Table.ofList
  rwa [Table.ofList_pairs] at hlisting

/-! ### Records -/

/-- The records of the catalogue are read back field by field. -/
theorem reads_event {e : Event} (h : Utf8.size e.tag < 0x100000000) :
    Format.event.read.Reads (Format.event.write e) e := by
  have hrecord : (readRecord₂ (depthLimit - 1) (.required "id" Format.uint32.read)
      (.required "tag" readString)).Reads
        (writeArray [writeNat e.id.toNat, writeString e.tag]) (e.id, e.tag) :=
    reads_record₂ (reads_uint32 e.id) (reads_writeString h)
  have hread := hrecord.mapValue fun fields => Event.mk fields.1 fields.2
  exact hread

theorem reads_reading {r : Reading} (h : Utf8.size r.sensor < 0x100000000) :
    Format.reading.read.Reads (Format.reading.write r) r := by
  have hrecord : (readRecord₂ (depthLimit - 1) (.required "sensor" readString)
      (.required "celsius" Format.int32.read)).Reads
        (writeArray [writeString r.sensor, Format.int32.write r.celsius]) (r.sensor, r.celsius) :=
    reads_record₂ (reads_writeString h) (reads_int32 r.celsius)
  have hread := hrecord.mapValue fun fields => Reading.mk fields.1 fields.2
  exact hread

theorem reads_fineReading {r : FineReading} (h : Utf8.size r.sensor < 0x100000000) :
    Format.fineReading.read.Reads (Format.fineReading.write r) r := by
  have hrecord : (readRecord₃ (depthLimit - 1) (.required "sensor" readString)
      (.required "millicelsius" Format.int64.read) (.required "calibrated" readBool)).Reads
        (writeArray [writeString r.sensor, Format.int64.write r.millicelsius,
          writeBool r.calibrated]) (r.sensor, r.millicelsius, r.calibrated) :=
    reads_record₃ (reads_writeString h) (reads_int64 r.millicelsius) (reads_bool r.calibrated)
  have hread := hrecord.mapValue fun fields =>
    FineReading.mk fields.1 fields.2.1 fields.2.2
  exact hread

/-- So is a descriptor. -/
theorem reads_descriptor {d : Descriptor} (h : Utf8.size d.name < 0x100000000) :
    Format.descriptor.read.Reads (Format.descriptor.write d) d := by
  have hrecord : (readRecord₂ (depthLimit - 1) (.required "name" readString)
      (.required "version" Format.uint32.read)).Reads
        (writeArray [writeString d.name, writeNat d.version.toNat]) (d.name, d.version) :=
    reads_record₂ (reads_writeString h) (reads_uint32 d.version)
  have hread := hrecord.mapValue fun fields => Descriptor.mk fields.1 fields.2
  exact hread

/-! ### Variants without content -/

/-- A name in the list of names is read as its place there. -/
theorem reads_plainVariant {names : List String} {name : String} {i : Nat}
    (hi : (names.findIdx? fun other => other == name) = some i)
    (hlen : (Utf8.encode name).length < 0x100000000) :
    (Format.readPlainVariant names).Reads (writeString name) i := by
  intro tail
  have hvariant := reads_variant hi hlen tail
  have hhead : readHead (writeString name ++ tail)
      = some (.str (Utf8.encode name).length, Utf8.encode name ++ tail) := by
    rw [writeString, List.append_assoc, reads_stringHeader hlen]
  rw [Format.readPlainVariant, hhead]
  exact hvariant

theorem reads_kind (k : StateKind) : Format.kind.read.Reads (Format.kind.write k) k := by
  -- every kind has its place among the names, and is what stands in that place
  have hplace : ∃ i, ((StateKind.all.map StateKind.tag).findIdx? fun other => other == k.tag)
      = some i ∧ StateKind.all[i]? = some k := by
    cases k <;> exact ⟨_, rfl, rfl⟩
  have hlen : (Utf8.encode k.tag).length < 0x100000000 := by cases k <;> decide
  obtain ⟨i, hi, hk⟩ := hplace
  intro tail
  simp only [Format.kind, reads_plainVariant hi hlen tail, hk, Option.map_some]

end MessagePack

end AppendLists
