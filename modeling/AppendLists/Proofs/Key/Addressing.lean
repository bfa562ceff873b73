import AppendLists.Proofs.Call
import AppendLists.State.Context

namespace AppendLists

/-!
# Addresses

Which keys and namespaces share a storage key, and what handles point at.

* `KeyBuilder.composite_inj`: the composite layout gives back key and namespace;
* `address`: the storage key at which handles find a key and namespace;
* `address_inj`: no two keys and namespaces share one;
* `StateContext.PointedAt`: the contexts that a handle comes to, with the key and the namespace it
  was pointed at last;
* `StateContext.IsAt`, `PointedAt.isAt`: what such a context looks like.
-/

namespace Bytes

/-- A number that fits its width is given back by its bytes. -/
theorem ofNatBE_inj {width m n : Nat} (hm : m < capacity width) (hn : n < capacity width)
    (h : ofNatBE width m = ofNatBE width n) : m = n := by
  have hread := congrArg toNatBE h
  rwa [toNatBE_ofNatBE, toNatBE_ofNatBE, Nat.mod_eq_of_lt hm, Nat.mod_eq_of_lt hn] at hread

end Bytes

/-- The bytes of a length that the composite layout can hold. -/
theorem capacity_four : Bytes.capacity 4 = 0x100000000 := rfl

/-- Storage keys of the composite layout are equal only if key and namespace are, and the groups
are written alike. -/
theorem KeyBuilder.composite_inj {maxParallelism group group' : Nat} {key key' ns ns' : Bytes}
    (hkey : key.length < 0x100000000) (hkey' : key'.length < 0x100000000)
    (h : composite maxParallelism group key ns = composite maxParallelism group' key' ns') :
    Bytes.ofNatBE (groupBytes maxParallelism) group
        = Bytes.ofNatBE (groupBytes maxParallelism) group' ∧ key = key' ∧ ns = ns' := by
  unfold composite at h
  simp only [List.append_assoc] at h
  obtain ⟨hgroup, h⟩ := List.append_inj h (by simp)
  obtain ⟨hlength, h⟩ := List.append_inj h (by simp)
  have hlen : key.length = key'.length :=
    Bytes.ofNatBE_inj (by rwa [capacity_four]) (by rwa [capacity_four]) hlength
  obtain ⟨hk, hn⟩ := List.append_inj h hlen
  exact ⟨hgroup, hk, hn⟩

/-- The storage key at which handles find a serialized key and namespace. -/
def address (maxParallelism : Nat) (key ns : Bytes) : Bytes :=
  KeyBuilder.composite maxParallelism (keyGroup key maxParallelism) key ns

/-- No two keys and namespaces share a storage key. -/
theorem address_inj {maxParallelism : Nat} {key key' ns ns' : Bytes}
    (hkey : key.length < 0x100000000) (hkey' : key'.length < 0x100000000) :
    address maxParallelism key ns = address maxParallelism key' ns' ↔ key = key' ∧ ns = ns' := by
  constructor
  · intro h
    exact (KeyBuilder.composite_inj hkey hkey' h).2
  · rintro ⟨rfl, rfl⟩
    rfl

/-! ### What handles point at -/

namespace Part

/-- What is serialized is what is written. -/
theorem serialize_eq_ok_iff {p : Part} {bs : Bytes} :
    p.serialize = .ok bs ↔ p.write? = some bs := by
  unfold serialize
  split <;> simp_all

end Part

namespace StateContext

/-- The contexts that a handle comes to from `start`, with the key and the namespace that it was
pointed at last. A call that fails leaves the handle where it is. -/
inductive PointedAt (start : StateContext) : Option Part → Option Part → StateContext → Prop where
  /-- Neither was set. -/
  | start : PointedAt start none none start
  /-- The key is set. -/
  | setKey {key ns : Option Part} {p : Part} {c c' : StateContext} (h : PointedAt start key ns c)
      (hset : c.setKey p = .ok c') : PointedAt start (some p) ns c'
  /-- The namespace is set. -/
  | setNamespace {key ns : Option Part} {p : Part} {c c' : StateContext}
      (h : PointedAt start key ns c) (hset : c.setNamespace p = .ok c') :
      PointedAt start key (some p) c'

theorem setKey_eq_ok {p : Part} {c c' : StateContext} (h : c.setKey p = .ok c') :
    ∃ bytes, p.write? = some bytes ∧
      c' = { c with current := some ⟨keyGroup bytes c.maxParallelism, bytes⟩ } := by
  obtain ⟨bytes, hbytes, h⟩ := bind_eq_ok h
  exact ⟨bytes, Part.serialize_eq_ok_iff.1 hbytes, (Except.ok.inj h).symm⟩

theorem setNamespace_eq_ok {p : Part} {c c' : StateContext} (h : c.setNamespace p = .ok c') :
    ∃ bytes, p.write? = some bytes ∧ c' = { c with ns := bytes } := by
  obtain ⟨bytes, hbytes, h⟩ := bind_eq_ok h
  exact ⟨bytes, Part.serialize_eq_ok_iff.1 hbytes, (Except.ok.inj h).symm⟩

/-- What a handle to the state `name` that was pointed at a key and a namespace looks like. -/
structure IsAt (name : String) (builder : KeyBuilder) (maxParallelism : Nat) (key ns : Option Part)
    (c : StateContext) : Prop where
  /-- The partition stays. -/
  partition_eq : c.partition = name
  /-- The layout stays. -/
  builder_eq : c.builder = builder
  /-- The number of groups stays. -/
  maxParallelism_eq : c.maxParallelism = maxParallelism
  /-- The key is there once it was set, with its group. -/
  current : key = none ∧ c.current = none ∨ ∃ p bytes, key = some p ∧ p.write? = some bytes ∧
    c.current = some ⟨keyGroup bytes maxParallelism, bytes⟩
  /-- The namespace is empty until it is set. -/
  ns : ns = none ∧ c.ns = [] ∨ ∃ p, ns = some p ∧ p.write? = some c.ns

/-- A handle that was new is where it was pointed at. -/
theorem PointedAt.isAt {name : String} {builder : KeyBuilder} {maxParallelism : Nat}
    {key ns : Option Part} {c : StateContext}
    (h : PointedAt (.fresh name builder maxParallelism) key ns c) :
    IsAt name builder maxParallelism key ns c := by
  induction h with
  | start => exact ⟨rfl, rfl, rfl, .inl ⟨rfl, rfl⟩, .inl ⟨rfl, rfl⟩⟩
  | setKey _ hset ih =>
    obtain ⟨bytes, hbytes, rfl⟩ := setKey_eq_ok hset
    have hgroup := congrArg (keyGroup bytes) ih.maxParallelism_eq
    exact ⟨ih.partition_eq, ih.builder_eq, ih.maxParallelism_eq,
      .inr ⟨_, bytes, rfl, hbytes, by rw [← hgroup]⟩, ih.ns⟩
  | setNamespace _ hset ih =>
    obtain ⟨bytes, hbytes, rfl⟩ := setNamespace_eq_ok hset
    exact ⟨ih.partition_eq, ih.builder_eq, ih.maxParallelism_eq, ih.current, .inr ⟨_, rfl, hbytes⟩⟩

end StateContext

end AppendLists
