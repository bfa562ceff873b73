import AppendLists.Text.Quoted

namespace AppendLists

/-!
# What a state is registered with

* `Descriptor`: the name and schema version of a codec, with its short form `name@vN`
  (`Descriptor.label`) and its full form (`Descriptor.describe`);
* `StateKind`: the closed set of state variants.
-/

/-- Name and schema version of a codec. -/
structure Descriptor where
  /-- The codec's name. -/
  name : String
  /-- The schema version; stored values of another version need migration. -/
  version : UInt32
deriving DecidableEq

/-- The short form, `name@vN`. -/
def Descriptor.label (d : Descriptor) : String := s!"{d.name}@v{d.version}"

/-- The full form, with the name quoted. -/
def Descriptor.describe (d : Descriptor) : String :=
  s!"CodecDescriptor \x7b name: {Text.quote d.name}, version: {d.version} \x7d"

/-- The variants of keyed state. -/
inductive StateKind where
  /-- A list per key and namespace, appended to by merging. -/
  | list
  /-- A map per key and namespace. -/
  | map
  /-- One value per key and namespace. -/
  | value
  /-- A running aggregate per key and namespace. -/
  | aggregating
deriving DecidableEq

/-- The kind in messages. -/
def StateKind.label : StateKind → String
  | .list => "list"
  | .map => "map"
  | .value => "value"
  | .aggregating => "aggregating"

/-- The kind as it is written in snapshots and encoded values. -/
def StateKind.tag : StateKind → String
  | .list => "List"
  | .map => "Map"
  | .value => "Value"
  | .aggregating => "Aggregating"

/-- The kinds in the order of their numbers. -/
def StateKind.all : List StateKind := [.list, .map, .value, .aggregating]

end AppendLists
