import AppendLists.Codec.Stamped
import AppendLists.ListFormat.Basic

namespace AppendLists

/-!
# Migrating written lists

When the codec of a list changes, its elements are decoded with the prior codec, converted, and
written with the new one, one at a time and without holding the whole list.

* `ElementMigration`: the conversion of one element;
* `ElementMigration.unchanged`, `enableExpiry`, `disableExpiry`: the common conversions;
* `Codec.migrateFrom`: elements migrated one after the other behind what a buffer holds already. A
  failure names its stage, and what was written before it is in the buffer;
* `migrateRun`, `migrateList`: a whole list migrated; after a failure the buffer is cut back to the
  length it had.
-/

/-- Converts an element of a prior schema. -/
abbrev ElementMigration (α β : Type) := α → Except StateError β

namespace ElementMigration

variable {α : Type}

/-- Keeps the element, for codecs that differ in layout only. -/
def unchanged : ElementMigration α α := .ok

/-- Stamps the element with the time `now`. -/
def enableExpiry (now : Int64) : ElementMigration α (Stamped α) := fun x => .ok ⟨x, now⟩

/-- Drops the stamp. -/
def disableExpiry : ElementMigration (Stamped α) α := fun x => .ok x.value

end ElementMigration

variable {α β : Type}

/-- Migrate the elements from the cursor on behind `out`, which holds `count` of them already: the
number of elements in the end, or an error, and what is in the buffer then, if reading ends. -/
def Codec.migrateFrom (prior : Codec α) (new : Codec β) (convert : ElementMigration α β)
    (count : Nat) (c : Cursor) (out : Bytes) : Option (Except StateError Nat × Bytes) :=
  match decodeNext prior c with
  | .error e => some (.error (.migration (.decoding count c.position prior.descriptor) e), out)
  | .ok none => some (.ok count, out)
  | .ok (some (x, c')) =>
    match convert x with
    | .error e =>
      some (.error (.migration (.converting count prior.descriptor new.descriptor) e), out)
    | .ok y =>
      match new.write y out with
      | (.error e, out) => some (.error (.migration (.encoding count new.descriptor) e), out)
      | (.ok (), out) =>
        prior |>.migrateFrom new convert (count + 1) c'
          (if c'.isEmpty then out else out ++ [delimiter])
partial_fixpoint

/-- After a failure the buffer is cut back to the length that `out` has. -/
def cutBack (out : Bytes) : Except StateError Nat × Bytes → Except StateError Nat × Bytes
  | (.ok count, out') => (.ok count, out')
  | (.error e, out') => (.error e, out'.take out.length)

/-- Migrate a written list behind `out`, if reading ends: the number of elements, or an error, and
what is in the buffer then. -/
def migrateRun (prior : Codec α) (new : Codec β) (convert : ElementMigration α β)
    (input out : Bytes) : Option (Except StateError Nat × Bytes) :=
  (prior.migrateFrom new convert 0 (Cursor.ofBytes input) out).map (cutBack out)

/-- Migrate a written list behind `out`: the number of elements, or an error, and what is in the
buffer then. -/
def migrateList (prior : Codec α) (new : Codec β) (convert : ElementMigration α β)
    (input out : Bytes) : Except StateError Nat × Bytes :=
  (migrateRun prior new convert input out).await

end AppendLists
