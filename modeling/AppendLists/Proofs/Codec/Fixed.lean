import AppendLists.Proofs.Codec.Appending
import AppendLists.Proofs.ListFormat.RoundTrip
import AppendLists.Proofs.Text.Utf8

namespace AppendLists

/-!
# Fixed layouts read back

The codecs of a fixed layout know by themselves where an element ends.

* `Cursor.take_of_rest`, `longBE_of_rest`, `signedBE_of_rest`, `wordLE_of_rest`: typed reads in
  front of what they read;
* `Codec.unframe_of_rest`: framed bytes;
* `Codec.conforming_u64`, `conforming_i64`, `conforming_bytes`, `conforming_string`: the codecs;
* `Codec.ReadsBack.stamped`, `Codec.Conforming.stamped`: a time in front of the elements of another
  codec;
* `Codec.ReadsBack.embed`: elements held by a larger type.
-/

namespace Cursor

variable {c : Cursor} {tail : Bytes}

/-- A typed read takes what is there and stops behind it. -/
theorem take_of_rest {bs : Bytes} (h : c.rest = bs ++ tail) :
    c.take bs.length = .ok (bs, c.skip bs.length) := by
  rw [take_eq_ok_iff, ← length_rest, h]
  simp

theorem skip_zero (c : Cursor) : c.skip 0 = c := by
  have := c.position_le
  exact ext_fields rfl (by simp only [skip]; omega)

theorem skip_skip (c : Cursor) (m n : Nat) : (c.skip m).skip n = c.skip (m + n) := by
  unfold skip
  simp only [Cursor.mk.injEq, true_and]
  omega

/-- The cursor behind the bytes that are read, told by how many are left. -/
theorem leaving_eq_skip {bs : Bytes} (h : c.rest = bs ++ tail) :
    c.leaving tail.length = c.skip bs.length := by
  have hposition := c.position_add_remaining
  have hlen : bs.length + tail.length = c.remaining := by
    rw [← length_rest, h, List.length_append]
  simp only [leaving, skip, Cursor.mk.injEq, true_and]
  omega

/-- Eight bytes are read as the number they were written for, in front of anything. -/
theorem longBE_of_rest {n : UInt64} (h : c.rest = Bytes.ofNatBE 8 n.toNat ++ tail) :
    c.longBE = .ok (n, c.skip 8) := by
  have htake := take_of_rest h
  rw [Bytes.length_ofNatBE] at htake
  have hread : UInt64.ofNat (Bytes.toNatBE (Bytes.ofNatBE 8 n.toNat)) = n := by
    have hlt : n.toNat < Bytes.capacity 8 := n.toNat_lt
    rw [Bytes.toNatBE_ofNatBE, Nat.mod_eq_of_lt hlt, UInt64.ofNat_toNat]
  rw [longBE, htake]
  simp only [bind, Except.bind, pure, Except.pure, hread]

/-- So are those of a signed one. -/
theorem signedBE_of_rest {i : Int64} (h : c.rest = Bytes.ofNatBE 8 i.toUInt64.toNat ++ tail) :
    c.signedBE = .ok (i, c.skip 8) := by
  rw [signedBE, longBE_of_rest h]
  simp only [bind, Except.bind, pure, Except.pure, Int64.toInt64_toUInt64]

/-- So are four, if the number fits them. -/
theorem wordLE_of_rest {n : Nat} (hn : n < 0x100000000) (h : c.rest = Bytes.ofNatLE 4 n ++ tail) :
    c.wordLE = .ok (UInt32.ofNat n, c.skip 4) := by
  have htake := take_of_rest h
  rw [Bytes.length_ofNatLE] at htake
  have hread : Bytes.toNatLE (Bytes.ofNatLE 4 n) = n := by
    have hlt : n < Bytes.capacity 4 := hn
    rw [Bytes.toNatLE_ofNatLE, Nat.mod_eq_of_lt hlt]
  rw [wordLE, htake]
  simp only [bind, Except.bind, pure, Except.pure, hread]

end Cursor

namespace Codec

/-! ### Numbers -/

/-- A codec of eight bytes that its decoder reads. -/
theorem readsBack_long {α : Type} {codec : Codec α} {x : α} {n : Nat}
    (hread : ∀ (c : Cursor) (tail : Bytes), c.rest = Bytes.ofNatBE 8 n ++ tail →
      codec.decode c = .ok (x, c.skip 8)) : codec.ReadsBack x (Bytes.ofNatBE 8 n) := by
  refine ⟨List.ne_nil_of_length_pos (by simp), fun c tail hrest => ?_⟩
  rw [Bytes.length_ofNatBE]
  exact hread c tail hrest

/-- A codec conforms if it reads the forms it appends back. -/
theorem WritesForm.conforming {α : Type} {codec : Codec α} {form : α → Except StateError Bytes}
    (h : codec.WritesForm form) (hread : ∀ x bs, form x = .ok bs → codec.ReadsBack x bs) :
    codec.Conforming where
  appending := h.appending
  reads_back x bs hbs := hread x bs (h.encode_eq x ▸ hbs)

/-- Numbers conform: eight bytes, whatever they are. -/
theorem conforming_u64 : Codec.u64.Conforming := by
  refine writesForm_u64.conforming fun n bs hbs => ?_
  obtain rfl := Except.ok.inj hbs
  exact readsBack_long fun _ _ => Cursor.longBE_of_rest

/-- So do signed ones. -/
theorem conforming_i64 : Codec.i64.Conforming := by
  refine writesForm_i64.conforming fun i bs hbs => ?_
  obtain rfl := Except.ok.inj hbs
  exact readsBack_long fun _ _ => Cursor.signedBE_of_rest

/-! ### Framed bytes -/

/-- A byte string is framed if its length fits four bytes, and has it in front. -/
theorem frame_eq_ok_iff {bs framed : Bytes} :
    frame bs = .ok framed
      ↔ bs.length < 0x100000000 ∧ framed = Bytes.ofNatLE 4 bs.length ++ bs := by
  unfold frame
  split
  · case isTrue h => simp [h, eq_comm]
  · case isFalse h => simp [h]

/-- A frame is read as what it holds, and no further. -/
theorem unframe_of_rest {bs tail : Bytes} (hbs : bs.length < 0x100000000) {c : Cursor}
    (h : c.rest = Bytes.ofNatLE 4 bs.length ++ bs ++ tail) :
    unframe c = .ok (bs, c.skip (4 + bs.length)) := by
  rw [List.append_assoc] at h
  have hlength := Cursor.wordLE_of_rest hbs h
  have hafter : (c.skip 4).rest = bs ++ tail := by
    rw [Cursor.rest_skip, h]
    exact List.drop_left' (by simp)
  have hn : (UInt32.ofNat bs.length).toNat = bs.length := UInt32.toNat_ofNat_of_lt' hbs
  rw [unframe, hlength]
  simp only [bind, Except.bind, hn, Cursor.take_of_rest hafter, Cursor.skip_skip]

/-- A framed form is non-empty, and unframing takes it off the front of anything. -/
theorem unframe_of_frame {bs framed : Bytes} (h : frame bs = .ok framed) :
    framed ≠ [] ∧ ∀ (c : Cursor) (tail : Bytes), c.rest = framed ++ tail →
      unframe c = .ok (bs, c.skip framed.length) := by
  obtain ⟨hbs, rfl⟩ := frame_eq_ok_iff.1 h
  have hpos : 0 < (Bytes.ofNatLE 4 bs.length ++ bs).length := by
    rw [List.length_append, Bytes.length_ofNatLE]
    omega
  refine ⟨List.ne_nil_of_length_pos hpos, fun c tail hrest => ?_⟩
  rw [unframe_of_rest hbs hrest, List.length_append, Bytes.length_ofNatLE]

/-- Framed byte strings conform. -/
theorem conforming_bytes : Codec.bytes.Conforming :=
  writesForm_bytes.conforming fun _ _ => unframe_of_frame

/-- Framed texts do, since their encoding can be undone. -/
theorem conforming_string : Codec.string.Conforming := by
  refine writesForm_string.conforming fun s framed h => ?_
  obtain ⟨hne, hread⟩ := unframe_of_frame h
  refine ⟨hne, fun c tail hrest => ?_⟩
  show (unframe c >>= _) = _
  rw [hread c tail hrest]
  simp only [bind, Except.bind, pure, Except.pure, Utf8.decode_encode]

/-! ### A time in front -/

variable {α β : Type} {codec : Codec α}

/-- A stamped element is written if the element is, with its time in front. -/
theorem Appending.encode_stamped_eq_ok_iff (hc : codec.Appending) {item : Stamped α} {bs : Bytes} :
    codec.stamped.encode item = .ok bs
      ↔ ∃ inner, codec.encode item.value = .ok inner
          ∧ bs = Bytes.ofNatBE 8 item.lastAccess.toUInt64.toNat ++ inner := by
  rw [hc.encode_stamped]
  cases codec.encode item.value with
  | error e => simp [Except.map]
  | ok inner => simp [Except.map, eq_comm]

/-- An element is read behind its time. -/
theorem decode_stamped {c : Cursor} {time : Int64} {x : α} {inner tail : Bytes}
    (hrest : c.rest = Bytes.ofNatBE 8 time.toUInt64.toNat ++ tail)
    (hvalue : (c.skip 8).rest = tail →
      codec.decode (c.skip 8) = .ok (x, (c.skip 8).skip inner.length)) :
    codec.stamped.decode c
      = .ok (⟨x, time⟩, c.skip (Bytes.ofNatBE 8 time.toUInt64.toNat ++ inner).length) := by
  have htime := Cursor.signedBE_of_rest hrest
  have hafter : (c.skip 8).rest = tail := by
    rw [Cursor.rest_skip, hrest]
    exact List.drop_left' (by simp)
  show (c.signedBE >>= _) = _
  rw [htime]
  simp only [bind, Except.bind, pure, Except.pure, hvalue hafter, Cursor.skip_skip,
    List.length_append, Bytes.length_ofNatBE]

/-- An element keeps an end of its own behind a time. -/
theorem ReadsBack.stamped {item : Stamped α} {inner : Bytes}
    (h : codec.ReadsBack item.value inner) :
    codec.stamped.ReadsBack item (Bytes.ofNatBE 8 item.lastAccess.toUInt64.toNat ++ inner) := by
  have hpos : 0 < (Bytes.ofNatBE 8 item.lastAccess.toUInt64.toNat ++ inner).length := by
    rw [List.length_append, Bytes.length_ofNatBE]
    omega
  refine ⟨List.ne_nil_of_length_pos hpos, fun c tail hrest => ?_⟩
  rw [List.append_assoc] at hrest
  exact decode_stamped hrest fun hafter => h.2 (c.skip 8) tail hafter

/-- Elements keep an end of their own behind a time. -/
theorem Conforming.stamped (hc : codec.Conforming) : codec.stamped.Conforming where
  appending := hc.appending.stamped
  reads_back item bs hbs := by
    obtain ⟨inner, hinner, rfl⟩ := hc.appending.encode_stamped_eq_ok_iff.1 hbs
    exact ReadsBack.stamped (hc.readsBack hinner)

/-! ### Elements of a larger type -/

variable {inject : α → β} {project : β → Option α}

/-- An element reads back as what holds it. -/
theorem ReadsBack.embed {x : α} {y : β} {bs : Bytes} (hinject : inject x = y)
    (h : codec.ReadsBack x bs) : (codec.embed inject project).ReadsBack y bs := by
  refine ⟨h.1, fun c tail hrest => ?_⟩
  show (codec.decode c).map _ = _
  rw [h.2 c tail hrest, ← hinject]
  rfl

end Codec

end AppendLists
