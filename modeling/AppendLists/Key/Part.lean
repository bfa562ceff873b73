import AppendLists.Error
import AppendLists.MessagePack.Writer

namespace AppendLists

/-!
# Keys and namespaces

A key or namespace is any structured value; inside storage keys it appears as its MessagePack
form. Some values share a form: a character and the text of it, an absent value and the empty
one, a present value and its content, a non-negative number with and without sign.

* `Part`: the values;
* `Part.serialize`: their bytes, or an error for a value that has none.
-/

/-- A value that a key or namespace is made of. -/
inductive Part where
  /-- The value without content. -/
  | unit
  /-- A truth value. -/
  | bool (b : Bool)
  /-- A text. -/
  | text (s : String)
  /-- A single character. -/
  | char (c : Char)
  /-- An unsigned number. -/
  | unsigned (n : UInt64)
  /-- A signed number. -/
  | signed (i : Int64)
  /-- A byte string. -/
  | bytes (bs : Bytes)
  /-- An absent value. -/
  | absent
  /-- A present value. -/
  | present (p : Part)
  /-- A sequence. -/
  | seq (ps : List Part)
  /-- Keys with values, in the given order. -/
  | map (entries : List (Part × Part))
  /-- A value that refuses to be written. -/
  | unserializable

namespace Part

open MessagePack

mutual

/-- The bytes of a part, if it has any. -/
def write? : Part → Option Bytes
  | .unit => some writeNil
  | .bool b => some (writeBool b)
  | .text s => some (writeString s)
  | .char c => some (writeString c.toString)
  | .unsigned n => some (writeNat n.toNat)
  | .signed i => some (writeInt i.toInt)
  | .bytes bs => some (writeBytes bs)
  | .absent => some writeNil
  | .present p => write? p
  | .seq ps => (writeSeq? ps).map writeArray
  | .map entries => (writeEntries? entries).map writeMap
  | .unserializable => none

/-- The bytes of each part of a sequence. -/
def writeSeq? : List Part → Option (List Bytes)
  | [] => some []
  | p :: ps => do return (← write? p) :: (← writeSeq? ps)

/-- The bytes of each key and value of a map. -/
def writeEntries? : List (Part × Part) → Option (List (Bytes × Bytes))
  | [] => some []
  | (k, v) :: entries => do return (← write? k, ← write? v) :: (← writeEntries? entries)

end

/-- The bytes of a part, or the error that it has none. -/
def serialize (p : Part) : Except StateError Bytes :=
  match p.write? with
  | some bs => .ok bs
  | none => .error .serialization

end Part

end AppendLists
