import AppendLists.Proofs.Call
import AppendLists.Proofs.MessagePack.Locality

namespace AppendLists

/-!
# Reads that do not go back

A codec may consume nothing, fail anywhere or read nonsense, but it hands on the cursor of the same
buffer, no earlier than it got it.

* `Cursor.Ahead`: a cursor of the same buffer that is not before another one;
* `Cursor.Forward`: reads that leave such a cursor, with `take`, `pure` and `bind`;
* `Codec.Forward`: codecs that decode so, among them those of a fixed layout, the packed ones and
  those that break the rules of the list format;
* `CodecSpec.forward`: all codecs of the catalogue.
-/

namespace Cursor

variable {α β : Type}

/-- The second cursor is one of the same buffer and not before the first. -/
structure Ahead (c c' : Cursor) : Prop where
  /-- The buffer is the same. -/
  buffer_eq : c'.buffer = c.buffer
  /-- The position is not an earlier one. -/
  position_le : c.position ≤ c'.position

namespace Ahead

variable {b c d : Cursor}

/-- Where the cursor stands is not behind it. -/
theorem refl (c : Cursor) : c.Ahead c := ⟨rfl, Nat.le_refl _⟩

/-- What lies ahead of what lies ahead lies ahead. -/
theorem trans (h : b.Ahead c) (h' : c.Ahead d) : b.Ahead d :=
  ⟨h'.buffer_eq.trans h.buffer_eq, Nat.le_trans h.position_le h'.position_le⟩

/-- Skipping bytes leads ahead, however many there are. -/
theorem skip (c : Cursor) (n : Nat) : c.Ahead (c.skip n) :=
  ⟨rfl, Nat.le_min.2 ⟨Nat.le_add_right _ _, c.position_le⟩⟩

/-- Fewer bytes are left if and only if the cursor has moved. -/
theorem remaining_lt_iff (h : c.Ahead d) : d.remaining < c.remaining ↔ d.position ≠ c.position := by
  have hc := c.position_add_remaining
  have hd := d.position_add_remaining
  have hposition := h.position_le
  rw [h.buffer_eq] at hd
  omega

end Ahead

/-- What is read leaves a cursor that is ahead. -/
def Forward (read : Cursor → Except StateError (α × Cursor)) : Prop :=
  ∀ c x c', read c = .ok (x, c') → c.Ahead c'

namespace Forward

/-- Taking bytes leads ahead. -/
theorem take (n : Cursor → Nat) : Forward fun c => c.take (n c) := by
  intro c bs c' h
  obtain ⟨_, _, rfl⟩ := take_eq_ok_iff.1 h
  exact .skip c (n c)

/-- So does reading nothing. -/
protected theorem pure (x : α) : Forward fun c => .ok (x, c) := by
  intro c y c' h
  obtain ⟨rfl, rfl⟩ := Prod.mk.inj (Except.ok.inj h)
  exact .refl c

/-- A read behind another one. -/
protected theorem bind {first : Cursor → Except StateError (α × Cursor)}
    {next : α → Cursor → Except StateError (β × Cursor)} (hfirst : Forward first)
    (hnext : ∀ x, Forward (next x)) : Forward fun c => first c >>= fun (x, c) => next x c := by
  intro c y c' h
  obtain ⟨⟨x, b⟩, hb, h⟩ := bind_eq_ok h
  exact (hfirst c x b hb).trans (hnext x b y c' h)

/-- The readers of numbers take bytes and nothing else. -/
theorem byte : Forward Cursor.byte := (take fun _ => 1).bind fun bs => .pure (bs.headD 0)

theorem longBE : Forward Cursor.longBE :=
  (take fun _ => 8).bind fun bs => .pure (UInt64.ofNat (Bytes.toNatBE bs))

theorem signedBE : Forward Cursor.signedBE := longBE.bind fun n => .pure n.toInt64

theorem wordLE : Forward Cursor.wordLE :=
  (take fun _ => 4).bind fun bs => .pure (UInt32.ofNat (Bytes.toNatLE bs))

end Forward

end Cursor

namespace Codec

variable {α β : Type} {codec : Codec α}

/-- What the codec decodes leaves a cursor that is ahead. -/
def Forward (codec : Codec α) : Prop := Cursor.Forward codec.decode

/-! ### Fixed layouts -/

/-- Codecs of numbers move ahead. -/
theorem forward_u64 : Codec.u64.Forward := Cursor.Forward.longBE

theorem forward_i64 : Codec.i64.Forward := Cursor.Forward.signedBE

/-- A frame is its length and as many bytes behind it. -/
theorem forward_unframe : Cursor.Forward unframe :=
  Cursor.Forward.wordLE.bind fun length => .take fun _ => length.toNat

/-- Codecs of byte strings and of texts move ahead. -/
theorem forward_bytes : Codec.bytes.Forward := forward_unframe

theorem forward_string : Codec.string.Forward := by
  intro c s c' h
  obtain ⟨⟨bs, b⟩, hunframe, h⟩ := bind_eq_ok h
  cases htext : Utf8.decode bs with
  | error fault =>
    simp only [htext] at h
    cases h
  | ok text =>
    simp only [htext] at h
    obtain ⟨rfl, rfl⟩ := Prod.mk.inj (Except.ok.inj h)
    exact forward_unframe c bs b hunframe

/-- A time in front of elements is one more move ahead. -/
theorem Forward.stamped (h : codec.Forward) : codec.stamped.Forward :=
  Cursor.Forward.signedBE.bind fun time =>
    Cursor.Forward.bind h fun x => .pure (Stamped.mk x time)

/-- Elements held by a larger type are read as they are. -/
theorem Forward.embed (h : codec.Forward) (inject : α → β) (project : β → Option α) :
    (codec.embed inject project).Forward := by
  intro c y c' hdecode
  cases hread : codec.decode c with
  | error e =>
    simp only [Codec.embed, hread] at hdecode
    cases hdecode
  | ok next =>
    obtain ⟨x, d⟩ := next
    simp only [Codec.embed, hread] at hdecode
    obtain ⟨rfl, rfl⟩ := Prod.mk.inj (Except.ok.inj hdecode)
    exact h c x d hread

/-! ### Packed values -/

/-- A reader that does not look ahead leaves the cursor behind what it took. -/
theorem forward_packed {format : MessagePack.Format α} (h : format.read.Local) (name : String)
    (version : UInt32) : (Codec.packed name version format).Forward := by
  intro c x c' hdecode
  cases hread : format.read c.rest with
  | none =>
    simp only [Codec.packed, hread] at hdecode
    cases hdecode
  | some found =>
    obtain ⟨y, rest⟩ := found
    simp only [Codec.packed, hread] at hdecode
    obtain ⟨rfl, rfl⟩ := Prod.mk.inj (Except.ok.inj hdecode)
    obtain ⟨used, hused, -⟩ := h c.rest y rest hread
    have hposition := c.position_add_remaining
    have hlen : used.length + rest.length = c.remaining := by
      rw [← Cursor.length_rest, hused, List.length_append]
    refine ⟨rfl, ?_⟩
    simp only [Cursor.leaving]
    omega

/-! ### Texts that break the rules -/

/-- Codecs that do not frame what they write take what is there, and move ahead as well. -/
theorem forward_unframed : Codec.unframed.Forward :=
  (Cursor.Forward.take fun c => (c.rest.takeWhile (· != delimiter)).length).bind fun bs =>
    .pure (Utf8.decodeLossy bs)

theorem forward_greedy : Codec.greedy.Forward :=
  (Cursor.Forward.take fun c => c.remaining).bind fun bs => .pure (Utf8.decodeLossy bs)

theorem forward_zero : Codec.zero.Forward := Cursor.Forward.pure ""

theorem forward_lossy : Codec.lossy.Forward :=
  Cursor.Forward.byte.bind fun length =>
    (Cursor.Forward.take fun _ => length.toNat).bind fun bs => .pure (Utf8.decodeLossy bs)

end Codec

/-- No codec of the catalogue leads back. -/
theorem CodecSpec.forward (spec : CodecSpec) : spec.codec.Forward := by
  induction spec with
  | uint64 => exact Codec.forward_u64.embed _ _
  | int64 => exact Codec.forward_i64.embed _ _
  | text => exact Codec.forward_string.embed _ _
  | bytes => exact Codec.forward_bytes.embed _ _
  | stamped inner ih => exact ih.stamped.embed _ _
  | packed type name version =>
    exact type.codec_cases name version fun α format inject project hlocal =>
      (Codec.forward_packed hlocal name version).embed inject project
  | unframed => exact Codec.forward_unframed.embed _ _
  | greedy => exact Codec.forward_greedy.embed _ _
  | zero => exact Codec.forward_zero.embed _ _
  | lossy => exact Codec.forward_lossy.embed _ _

end AppendLists
