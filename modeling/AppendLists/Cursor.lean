import AppendLists.Error

namespace AppendLists

/-!
# Cursors

A cursor is a byte string with a position in it; reads move the position forward, never past the
end. Codecs read from a cursor and leave it exactly after the bytes they consumed.

* `Cursor.take`: exactly `n` bytes, or an error that leaves the cursor where it is;
* `Cursor.byte`, `Cursor.wordLE`, `Cursor.longBE`, `Cursor.signedBE`: typed reads over `take`;
* `Cursor.fill`, `Cursor.fillExact`: stream reads, which take what is there;
* `Cursor.Request`, `Cursor.answer`: any single read as data, with its reply and the next cursor.

The position stays inside the buffer by type; `rest_take` says which bytes a read leaves.
-/

/-- A position in a byte string. -/
structure Cursor where
  /-- The whole byte string, whatever the position. -/
  buffer : Bytes
  /-- The offset of the next unread byte. -/
  position : Nat
  /-- The position is inside the buffer or at its end. -/
  position_le : position ≤ buffer.length
deriving DecidableEq

namespace Cursor

@[ext] theorem ext_fields {c d : Cursor} (hb : c.buffer = d.buffer)
    (hp : c.position = d.position) : c = d := by
  cases c; cases d; cases hb; cases hp; rfl

/-- The cursor at the start of a byte string. -/
def ofBytes (bs : Bytes) : Cursor := ⟨bs, 0, Nat.zero_le _⟩

/-- The number of unread bytes. -/
def remaining (c : Cursor) : Nat := c.buffer.length - c.position

/-- The unread bytes. -/
def rest (c : Cursor) : Bytes := c.buffer.drop c.position

/-- Whether every byte has been read. -/
def isEmpty (c : Cursor) : Bool := c.remaining == 0

/-- The cursor `n` bytes further on, or at the end if fewer are left. -/
def skip (c : Cursor) (n : Nat) : Cursor :=
  ⟨c.buffer, min (c.position + n) c.buffer.length, Nat.min_le_right _ _⟩

/-- The cursor of the same buffer at which `unread` bytes are left. -/
def leaving (c : Cursor) (unread : Nat) : Cursor :=
  ⟨c.buffer, c.buffer.length - unread, Nat.sub_le _ _⟩

/-- As many bytes are ahead as remain. -/
@[simp] theorem length_rest (c : Cursor) : c.rest.length = c.remaining := by
  simp [rest, remaining]

/-- What was read and what remains make up the buffer. -/
theorem position_add_remaining (c : Cursor) : c.position + c.remaining = c.buffer.length := by
  have := c.position_le
  unfold remaining
  omega

@[simp] theorem rest_ofBytes (bs : Bytes) : (ofBytes bs).rest = bs := rfl

/-- What is skipped is not ahead any more. -/
@[simp] theorem rest_skip (c : Cursor) (n : Nat) : (c.skip n).rest = c.rest.drop n := by
  simp only [rest, skip, List.drop_drop]
  by_cases h : c.position + n ≤ c.buffer.length
  · rw [Nat.min_eq_left h]
  · rw [Nat.min_eq_right (by omega), List.drop_length, List.drop_eq_nil_of_le (by omega)]

/-! ### Typed reads -/

/-- Read exactly `n` bytes, or fail where the cursor is. -/
def take (n : Nat) (c : Cursor) : Except StateError (Bytes × Cursor) :=
  if c.remaining < n then .error (.corrupt (.endOfInput c.position n c.remaining))
  else .ok (c.rest.take n, c.skip n)

/-- Read one byte. -/
def byte (c : Cursor) : Except StateError (UInt8 × Cursor) := do
  let (bs, c) ← c.take 1
  return (bs.headD 0, c)

/-- Read four bytes as a number, least significant first. -/
def wordLE (c : Cursor) : Except StateError (UInt32 × Cursor) := do
  let (bs, c) ← c.take 4
  return (UInt32.ofNat (Bytes.toNatLE bs), c)

/-- Read eight bytes as a number, most significant first. -/
def longBE (c : Cursor) : Except StateError (UInt64 × Cursor) := do
  let (bs, c) ← c.take 8
  return (UInt64.ofNat (Bytes.toNatBE bs), c)

/-- Read eight bytes as a signed number in two's complement, most significant first. -/
def signedBE (c : Cursor) : Except StateError (Int64 × Cursor) := do
  let (n, c) ← c.longBE
  return (n.toInt64, c)

/-! ### Stream reads -/

/-- Read up to `n` bytes. -/
def fill (n : Nat) (c : Cursor) : Bytes × Cursor := (c.rest.take n, c.skip n)

/-- Read exactly `n` bytes as a stream does: a read that comes up short has consumed what was
left. -/
def fillExact (n : Nat) (c : Cursor) : Except StorageError Bytes × Cursor :=
  if c.remaining < n then (.error (.device .endOfInput), c.skip n)
  else (.ok (c.rest.take n), c.skip n)

/-! ### Reads as data -/

/-- A single read. -/
inductive Request where
  /-- One byte. -/
  | byte
  /-- A four-byte number, least significant byte first. -/
  | wordLE
  /-- An eight-byte number, most significant byte first. -/
  | longBE
  /-- A signed eight-byte number, most significant byte first. -/
  | signedBE
  /-- Exactly `n` bytes. -/
  | take (n : Nat)
  /-- The unread bytes, without moving. -/
  | rest
  /-- The whole buffer, without moving. -/
  | buffer
  /-- Whether the end is reached, without moving. -/
  | isEmpty
  /-- Up to `n` bytes, as a stream. -/
  | fill (n : Nat)
  /-- Exactly `n` bytes, as a stream. -/
  | fillExact (n : Nat)
deriving DecidableEq

/-- What a read delivers. -/
inductive Reply where
  /-- One byte. -/
  | byte (b : UInt8)
  /-- A four-byte number. -/
  | word (n : UInt32)
  /-- An eight-byte number. -/
  | long (n : UInt64)
  /-- A signed eight-byte number. -/
  | signed (n : Int64)
  /-- Some bytes. -/
  | bytes (bs : Bytes)
  /-- Yes or no. -/
  | flag (b : Bool)
  /-- The bytes a stream read found. -/
  | filled (bs : Bytes)
  /-- A typed read that failed. -/
  | corrupt (e : StateError)
  /-- A stream read that failed. -/
  | failed (e : StorageError)
deriving DecidableEq

/-- The reply and next cursor of a typed read, which stays where it is when it fails. -/
def settle {α : Type} (c : Cursor) (reply : α → Reply) :
    Except StateError (α × Cursor) → Reply × Cursor
  | .ok (a, c') => (reply a, c')
  | .error e => (.corrupt e, c)

/-- The reply to a read, and the cursor after it. -/
def answer (c : Cursor) : Request → Reply × Cursor
  | .byte => c.settle .byte c.byte
  | .wordLE => c.settle .word c.wordLE
  | .longBE => c.settle .long c.longBE
  | .signedBE => c.settle .signed c.signedBE
  | .take n => c.settle .bytes (c.take n)
  | .rest => (.bytes c.rest, c)
  | .buffer => (.bytes c.buffer, c)
  | .isEmpty => (.flag c.isEmpty, c)
  | .fill n => let (bs, c') := c.fill n; (.filled bs, c')
  | .fillExact n =>
    match c.fillExact n with
    | (.ok bs, c') => (.bytes bs, c')
    | (.error e, c') => (.failed e, c')

/-- The replies to several reads in turn, and the cursor after the last. -/
def answers (c : Cursor) : List Request → List Reply × Cursor
  | [] => ([], c)
  | r :: rs =>
    let (reply, c') := c.answer r
    let (replies, last) := answers c' rs
    (reply :: replies, last)

/-! ### What a read leaves -/

/-- Bytes are taken if as many remain, and then they are the next ones. -/
theorem take_eq_ok_iff {n : Nat} {c : Cursor} {bs : Bytes} {c' : Cursor} :
    c.take n = .ok (bs, c') ↔ n ≤ c.remaining ∧ bs = c.rest.take n ∧ c' = c.skip n := by
  unfold take
  split
  · case isTrue h => simp; omega
  · case isFalse h =>
    simp only [Except.ok.injEq, Prod.mk.injEq]
    constructor
    · rintro ⟨rfl, rfl⟩; exact ⟨by omega, rfl, rfl⟩
    · rintro ⟨_, rfl, rfl⟩; exact ⟨rfl, rfl⟩

/-- What was taken stood in front of what is left. -/
theorem rest_take {n : Nat} {c : Cursor} {bs : Bytes} {c' : Cursor}
    (h : c.take n = .ok (bs, c')) : c.rest = bs ++ c'.rest := by
  obtain ⟨_, rfl, rfl⟩ := take_eq_ok_iff.1 h
  simp

end Cursor

end AppendLists
