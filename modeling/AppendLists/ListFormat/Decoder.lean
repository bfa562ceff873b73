import AppendLists.ListFormat.Basic

namespace AppendLists

/-!
# Step-by-step decoding

A decoder yields the elements of a written list one at a time and remembers where the latest one
began. After an error it yields nothing further.

* `Decoder.start`: the decoder in front of the first element;
* `Decoder.next`: the next element or error, and the decoder after it;
* `Decoder.suffix`: the written list from the latest element on.
-/

/-- The state of decoding a written list. -/
structure Decoder where
  /-- Where the next element begins. -/
  cursor : Cursor
  /-- The offset at which the latest element began. -/
  elementStart : Nat
  /-- Whether decoding has failed. -/
  failed : Bool
deriving DecidableEq

namespace Decoder

variable {α : Type}

/-- The decoder in front of the first element. -/
def start (bs : Bytes) : Decoder := ⟨Cursor.ofBytes bs, 0, false⟩

/-- The next element or error, `none` after the end or an error, and the decoder after it. -/
def next (codec : Codec α) (d : Decoder) : Option (Except StateError α) × Decoder :=
  if d.failed then (none, d)
  else
    let d := { d with elementStart := d.cursor.position }
    match decodeNext codec d.cursor with
    | .ok none => (none, d)
    | .ok (some (x, c)) => (some (.ok x), { d with cursor := c })
    | .error e => (some (.error e), { d with failed := true })

/-- The written list from the latest element to the end. -/
def suffix (d : Decoder) : Bytes := d.cursor.buffer.drop d.elementStart

end Decoder

end AppendLists
