import AppendLists.Checksum

namespace AppendLists

/-!
# Storage keys

The key of a stored value is built from the key group, the serialized key and the serialized
namespace. Key groups divide the keys evenly; they come first, so that the keys of a group stand
together.

* `keyGroup`: the group of a serialized key;
* `KeyBuilder`: a layout of the three parts;
* `KeyBuilder.composite`: group, key length, key, namespace: distinct triples have distinct keys;
* `KeyBuilder.concatenated`: the parts one after the other.
-/

/-- The group of a serialized key among `maxParallelism` groups. -/
def keyGroup (key : Bytes) (maxParallelism : Nat) : Nat :=
  (crc32 key).toNat % max maxParallelism 1

/-- A layout of storage keys: group, key and namespace to the key of the store. -/
abbrev KeyBuilder := Nat → Bytes → Bytes → Bytes

namespace KeyBuilder

/-- The number of bytes a key group takes: one for up to 128 groups, else two. -/
def groupBytes (maxParallelism : Nat) : Nat := if maxParallelism ≤ 128 then 1 else 2

/-- Group, four bytes of key length, key, namespace; numbers with the most significant byte
first. -/
def composite (maxParallelism : Nat) : KeyBuilder := fun group key ns =>
  Bytes.ofNatBE (groupBytes maxParallelism) group ++ Bytes.ofNatBE 4 key.length ++ key ++ ns

/-- Two bytes of group, most significant first, then key and namespace. -/
def concatenated : KeyBuilder := fun group key ns => Bytes.ofNatBE 2 group ++ key ++ ns

end KeyBuilder

end AppendLists
