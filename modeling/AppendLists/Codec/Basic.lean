import AppendLists.Cursor

namespace AppendLists

/-!
# Element codecs

A codec writes single elements to a buffer and reads them back from a cursor. The written form may
hold any byte, the list delimiter included: lists find their delimiters by decoding, never by
searching, so a codec has to know by itself where an element ends.

* `Codec`: name, schema version, and the two directions. A codec is handed the buffer and the cursor
  as they are and may do anything to them: look at what was written before, take it away, or go back
  to what was read already;
* `Codec.put`, `Codec.encode`: an element written to a buffer, and by itself;
* `Codec.Appending`, `Codec.Keeping`: codecs that put what they write behind what the buffer holds,
  and codecs that take nothing away;
* `Codec.Conforming`: what lists rely on: what is written is put behind the buffer, every written form
  is non-empty, and reading it in front of anything gives the element back and stops where the form
  ends;
* `Codec.appendForm`: writing a form that is known as a whole;
* `Codec.embed`: a codec of a part of a larger item type.
-/

/-- A serializer for the elements of a list. -/
structure Codec (α : Type) where
  /-- The name states are registered with. -/
  name : String
  /-- The schema version. -/
  version : UInt32
  /-- Write one element to a buffer: the outcome, and what the buffer holds then. -/
  write : α → Bytes → Except StateError Unit × Bytes
  /-- Read one element and move behind it. -/
  decode : Cursor → Except StateError (α × Cursor)

namespace Codec

variable {α β : Type}

/-- Name and version together. -/
def descriptor (codec : Codec α) : Descriptor := ⟨codec.name, codec.version⟩

/-- The buffer with an element written to it. -/
def put (codec : Codec α) (x : α) (out : Bytes) : Except StateError Bytes :=
  match codec.write x out with
  | (.ok (), out) => .ok out
  | (.error e, _) => .error e

/-- The written form of an element by itself. -/
def encode (codec : Codec α) (x : α) : Except StateError Bytes := codec.put x []

/-- What is written is put behind what the buffer holds, and neither whether nor what depends on
that. -/
def Appending (codec : Codec α) : Prop :=
  ∀ x out, codec.put x out = (codec.encode x).map (out ++ ·)

/-- The buffer holds what it held before, and perhaps more, whatever becomes of the element. -/
def Keeping (codec : Codec α) : Prop := ∀ x out, out <+: (codec.write x out).2

/-- What lists rely on. -/
structure Conforming (codec : Codec α) : Prop where
  /-- What is written is put behind what the buffer holds. -/
  appending : codec.Appending
  /-- Every written form is non-empty, and reading it in front of anything gives the element back
  and moves exactly behind the form. -/
  reads_back : ∀ x bs, codec.encode x = .ok bs →
    bs ≠ [] ∧ ∀ (c : Cursor) (tail : Bytes), c.rest = bs ++ tail →
      codec.decode c = .ok (x, c.skip bs.length)

/-- Put a form behind what the buffer holds; without one the buffer stays as it is. -/
def appendForm (form : Except StateError Bytes) (out : Bytes) : Except StateError Unit × Bytes :=
  match form with
  | .ok bs => (.ok (), out ++ bs)
  | .error e => (.error e, out)

/-- The codec on a larger item type that holds its elements by `inject`; an item for which
`project` finds no element is refused. -/
def embed (codec : Codec α) (inject : α → β) (project : β → Option α) : Codec β where
  name := codec.name
  version := codec.version
  write item out :=
    match project item with
    | some x => codec.write x out
    | none => (.error (.invalidArgument (.unfitItem codec.name)), out)
  decode c := (codec.decode c).map fun (x, c') => (inject x, c')

end Codec

end AppendLists
