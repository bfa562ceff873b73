import AppendLists.Catalogue.Codec
import AppendLists.Catalogue.Rule
import AppendLists.Migration
import AppendLists.Text.Hex
import AppendLists.Text.Numeral

namespace AppendLists

/-!
# The element conversions of the catalogue

Migrations of single items, described at run time.

* `PackedType.ofText?`, `CodecSpec.ofText?`: an item of a type read from text;
* `Conversion`, `Conversion.migration`: the conversions.
-/

/-- An item of a packed type read from text: numbers in decimal, byte sequences in hexadecimal,
kinds by their labels. No text stands for a value of the other types. -/
def PackedType.ofText? (s : String) : PackedType → Option Item
  | .uint8 => do (Item.packed (.uint8 0)).withInteger? (← Numeral.unsigned? s)
  | .uint32 => do (Item.packed (.uint32 0)).withInteger? (← Numeral.unsigned? s)
  | .int32 => do (Item.packed (.int32 0)).withInteger? (← Numeral.signed? s)
  | .uint64 => do (Item.packed (.uint64 0)).withInteger? (← Numeral.unsigned? s)
  | .int64 => do (Item.packed (.int64 0)).withInteger? (← Numeral.signed? s)
  | .text => some (.packed (.text s))
  | .optional => do
    Item.within (-0x8000000000000000) 0x7FFFFFFFFFFFFFFF (← Numeral.signed? s) fun i =>
      .packed (.optional (some (Int64.ofInt i)))
  | .bytes => (Hex.toBytes? s).map fun bs => .packed (.bytes bs)
  | .kind => (StateKind.all.find? fun k => k.label = s).map fun k => .packed (.kind k)
  | .bool | .unit | .texts | .table | .event | .reading | .fineReading | .descriptor | .operator =>
    none

/-- An item of a codec's type read from text: numbers in decimal, byte strings in hexadecimal. No
text stands for a stamped item. -/
def CodecSpec.ofText? (s : String) : CodecSpec → Option Item
  | .uint64 => do (Item.uint64 0).withInteger? (← Numeral.unsigned? s)
  | .int64 => do (Item.int64 0).withInteger? (← Numeral.signed? s)
  | .text | .unframed | .greedy | .zero | .lossy => some (.text s)
  | .bytes => (Hex.toBytes? s).map .bytes
  | .packed type _ _ => type.ofText? s
  | .stamped _ => none

/-- A description of an element migration. -/
inductive Conversion where
  /-- Keep the item. -/
  | keep
  /-- Stamp the item with the current time. -/
  | enableExpiry
  /-- Drop the stamp. -/
  | disableExpiry
  /-- Add `n` to a number. -/
  | add (n : Int)
  /-- Refuse the item that is the text or number `s`. -/
  | reject (s : String)
  /-- Write a number as a text. -/
  | print
  /-- Read a text, or a number's decimal form, as an item of another codec. -/
  | cast (target : CodecSpec)
  /-- Refine a reading. -/
  | refine
deriving DecidableEq

namespace Conversion

/-- A refusal in the migration's own words. -/
def refuse {α : Type} (text : String) : Except StateError α :=
  .error (.invalidArgument (.reported text))

/-- A number in decimal, or a text itself. -/
def textForm? (item : Item) : Option String :=
  match item.integer? with
  | some i => some (toString i)
  | none => item.text?

/-- The migration that is described, at the time `now`. -/
def migration (now : Int64) : Conversion → ElementMigration Item Item
  | .keep => ElementMigration.unchanged
  | .enableExpiry => fun item =>
    (ElementMigration.enableExpiry now item).map fun s => .stamped s.value s.lastAccess
  | .disableExpiry => fun
    | .stamped value lastAccess => ElementMigration.disableExpiry ⟨value, lastAccess⟩
    | _ => refuse "not a ttl item"
  | .add n => fun item =>
    match item.integer? with
    | none => refuse "not an integer"
    | some i =>
      match item.withInteger? (i + n) with
      | some item => .ok item
      | none => refuse s!"{i + n} is out of range"
  | .reject s => fun item => if textForm? item = some s then refuse "rejected" else .ok item
  | .print => fun item =>
    match item.integer? with
    | some i => .ok (.text (toString i))
    | none => refuse "not an integer"
  | .cast target => fun item =>
    match textForm? item with
    | none => refuse "cannot cast"
    | some s =>
      match target.ofText? s with
      | none => refuse s!"cannot cast {s}"
      | some item => .ok item
  | .refine => fun
    | .packed (.reading r) =>
      .ok (.packed (.fineReading ⟨r.sensor, Int64.ofInt (r.celsius.toInt * 1000), false⟩))
    | _ => refuse "not a reading"

end Conversion

end AppendLists
