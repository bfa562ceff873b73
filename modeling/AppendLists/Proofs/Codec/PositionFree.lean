import AppendLists.Proofs.Call
import AppendLists.Proofs.Codec.Fixed
import AppendLists.Proofs.Codec.Forward

namespace AppendLists

/-!
# Reads that do not depend on the position

A list whose front was cut off starts at another offset than before. It still holds the elements it
held there if decoding depends on the unread bytes only.

* `Cursor.PositionFree`: at cursors with the same bytes unread, the same is read and both cursors
  move equally far;
* `Cursor.PositionFree.take`, `pure`, `bind`: typed reads, and reads in turn;
* `Codec.PositionFree`: the codecs that decode so;
* `Codec.positionFree_u64`, `positionFree_i64`, `positionFree_bytes`, `positionFree_string`,
  `Codec.PositionFree.stamped`: the codecs of a fixed layout.
-/

namespace Cursor

variable {α β : Type}

/-- What is read, and how far the cursor moves, depends on the unread bytes only. -/
def PositionFree (read : Cursor → Except StateError (α × Cursor)) : Prop :=
  ∀ c d : Cursor, c.rest = d.rest → ∀ x c', read c = .ok (x, c') →
    ∃ n, c' = c.skip n ∧ read d = .ok (x, d.skip n)

namespace PositionFree

/-- Taking bytes depends on the bytes, not on how many were read before. -/
theorem take (n : Nat) : PositionFree (Cursor.take n) := by
  intro c d hrest bs c' h
  obtain ⟨hn, rfl, rfl⟩ := take_eq_ok_iff.1 h
  have hsame : d.remaining = c.remaining := by rw [← length_rest, ← length_rest, hrest]
  exact ⟨n, rfl, take_eq_ok_iff.2 ⟨by omega, by rw [hrest], rfl⟩⟩

/-- So does reading nothing. -/
protected theorem pure (x : α) : PositionFree fun c => .ok (x, c) := by
  intro c d _ y c' h
  obtain ⟨rfl, rfl⟩ := Prod.mk.inj (Except.ok.inj h)
  exact ⟨0, (skip_zero c).symm, by rw [skip_zero]⟩

/-- A read behind another one. -/
protected theorem bind {first : Cursor → Except StateError (α × Cursor)}
    {next : α → Cursor → Except StateError (β × Cursor)} (hfirst : PositionFree first)
    (hnext : ∀ x, PositionFree (next x)) :
    PositionFree fun c => first c >>= fun (x, c) => next x c := by
  intro c d hrest y c' h
  obtain ⟨⟨x, b⟩, hc, h⟩ := bind_eq_ok h
  obtain ⟨m, rfl, hd⟩ := hfirst c d hrest x b hc
  obtain ⟨n, rfl, hd'⟩ := hnext x (c.skip m) (d.skip m) (by simp [hrest]) y c' h
  refine ⟨m + n, skip_skip c m n, ?_⟩
  have hthen : (first d >>= fun (x, c) => next x c) = next x (d.skip m) := by
    rw [hd]
    rfl
  rw [← skip_skip, ← hd']
  exact hthen

/-- The readers of numbers take bytes. -/
theorem longBE : PositionFree Cursor.longBE :=
  (take 8).bind fun bs => .pure (UInt64.ofNat (Bytes.toNatBE bs))

theorem signedBE : PositionFree Cursor.signedBE := longBE.bind fun n => .pure n.toInt64

theorem wordLE : PositionFree Cursor.wordLE :=
  (take 4).bind fun bs => .pure (UInt32.ofNat (Bytes.toNatLE bs))

end PositionFree

end Cursor

namespace Codec

variable {α : Type}

/-- What is decoded, and how far the cursor moves, depends on the unread bytes only. -/
def PositionFree (codec : Codec α) : Prop := Cursor.PositionFree codec.decode

/-- Such a codec does not go back: the cursor is moved by some bytes. -/
theorem PositionFree.forward {codec : Codec α} (h : codec.PositionFree) : codec.Forward := by
  intro c x c' hdecode
  obtain ⟨n, rfl, -⟩ := h c c rfl x c' hdecode
  exact .skip c n

/-- The codecs of a fixed layout go by the bytes ahead alone. -/
theorem positionFree_u64 : Codec.u64.PositionFree := .longBE

theorem positionFree_i64 : Codec.i64.PositionFree := .signedBE

/-- So does what reads a frame. -/
theorem positionFree_unframe : Cursor.PositionFree unframe :=
  Cursor.PositionFree.wordLE.bind fun length => .take length.toNat

theorem positionFree_bytes : Codec.bytes.PositionFree := positionFree_unframe

/-- A text that is refused is refused wherever it stands. -/
theorem positionFree_string : Codec.string.PositionFree := by
  intro c d hrest text c' h
  obtain ⟨⟨bs, b⟩, hbytes, h⟩ := bind_eq_ok h
  obtain ⟨n, rfl, hd⟩ := positionFree_unframe c d hrest bs b hbytes
  -- whether the bytes are text has nothing to do with the cursor
  cases htext : Utf8.decode bs with
  | error fault =>
    simp only [htext] at h
    cases h
  | ok s =>
    simp only [htext] at h
    obtain ⟨rfl, rfl⟩ := Prod.mk.inj (Except.ok.inj h)
    refine ⟨n, rfl, ?_⟩
    show (unframe d >>= _) = _
    rw [hd]
    simp only [bind, Except.bind, htext]
    rfl

/-- A time in front of elements does not make a difference. -/
theorem PositionFree.stamped {codec : Codec α} (h : codec.PositionFree) :
    codec.stamped.PositionFree :=
  Cursor.PositionFree.signedBE.bind fun time =>
    Cursor.PositionFree.bind h fun x => Cursor.PositionFree.pure (Stamped.mk x time)

end Codec

end AppendLists
