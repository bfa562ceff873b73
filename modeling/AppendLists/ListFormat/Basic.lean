import AppendLists.Await
import AppendLists.Codec.Basic

namespace AppendLists

/-!
# The delimited list format

A list is written as its elements with one delimiter byte between consecutive ones and none after
the last. A store that joins fragments with the same delimiter therefore appends to a list
without reading it.

* `delimiter`: the separating byte;
* `encodeList`: the written form of a list, its elements one behind the other in one buffer with the
  delimiter between them;
* `decodeNext`: the element at a cursor, with the delimiter behind it;
* `Codec.decodeFrom`, `decodeList`: all elements from a cursor, or of a stored value.

A delimiter after the last element is tolerated on reading. An element that takes no bytes is an error,
but a codec may also go back to what was read already, and then reading may never come to an end.
-/

/-- The byte between two elements. -/
def delimiter : UInt8 := 0x2C

variable {α : Type}

/-- Write elements to a buffer, each behind a delimiter. -/
def putDelimited (codec : Codec α) : List α → Bytes → Except StateError Bytes
  | [], out => .ok out
  | x :: xs, out => do
    let out ← codec.put x (out ++ [delimiter])
    putDelimited codec xs out

/-- The written form of a list. The first element that cannot be encoded is the error. -/
def encodeList (codec : Codec α) : List α → Except StateError Bytes
  | [] => .ok []
  | x :: xs => do
    let out ← codec.encode x
    putDelimited codec xs out

/-- The element at the cursor, which moves behind it and the delimiter after it; `none` at the
end of input. -/
def decodeNext (codec : Codec α) (c : Cursor) : Except StateError (Option (α × Cursor)) :=
  if c.isEmpty then .ok none
  else
    match codec.decode c with
    | .error e => .error e
    | .ok (x, c') =>
      if c'.position = c.position then .error (.corrupt (.noProgress codec.name c.position))
      else
        match c'.rest with
        | [] => .ok (some (x, c'))
        | b :: _ =>
          if b = delimiter then .ok (some (x, c'.skip 1))
          else .error (.corrupt (.badDelimiter c'.position b))

/-- The elements from the cursor to the end of input, if reading ends. -/
def Codec.decodeFrom (codec : Codec α) (c : Cursor) : Option (Except StateError (List α)) :=
  match decodeNext codec c with
  | .error e => some (.error e)
  | .ok none => some (.ok [])
  | .ok (some (x, c')) => do
    let xs ← codec |>.decodeFrom c'
    return xs.map (x :: ·)
partial_fixpoint

/-- The elements of a stored value; an absent value is the empty list. -/
def decodeList (codec : Codec α) : Option Bytes → Except StateError (List α)
  | none => .ok []
  | some bs => (codec.decodeFrom (Cursor.ofBytes bs)).await

end AppendLists
