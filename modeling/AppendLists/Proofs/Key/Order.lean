import AppendLists.Proofs.Backend.Settings
import AppendLists.Proofs.Key.Addressing
import AppendLists.Store.Memory

namespace AppendLists

/-!
# The order of storage keys

Storage keys of the composite layout name their group, key and namespace, and stand in the order
of their groups, so that the keys of a group are neighbours in the store. Both rest on the group
fitting the bytes that are laid out for it, which it does in every backend.

* `Bytes.ofNatBE_lt`: numbers of one width are ordered like their bytes;
* `KeyBuilder.composite_eq_iff`, `KeyBuilder.composite_lt`: equality and order of storage keys;
* `keyGroup_lt`: a key's group is one of the groups;
* `StateContext.IsAt.keyIn_eq_ok`: the storage keys that handles ask for;
* `storage_keys_ordered_by_group`: all of it together.
-/

namespace Bytes

/-! ### Numbers as bytes -/

/-- Of two strings of one length, what follows does not change which one is first. -/
theorem append_lt_append {a b : Bytes} (h : a < b) (hlen : a.length = b.length) (x y : Bytes) :
    a ++ x < b ++ y := by
  induction a generalizing b with
  | nil =>
    -- of one length, neither string is a beginning of the other
    obtain rfl := List.length_eq_zero_iff.1 hlen.symm
    exact absurd h (List.lt_irrefl [])
  | cons c a ih =>
    cases b with
    | nil => cases hlen
    | cons d b =>
      rw [List.cons_append, List.cons_append, List.cons_lt_cons_iff]
      rcases List.cons_lt_cons_iff.1 h with hlt | ⟨heq, hlt⟩
      · exact .inl hlt
      · exact .inr ⟨heq, ih hlt (Nat.succ.inj hlen)⟩

/-- The last byte of a number. -/
theorem ofNatBE_succ (width n : Nat) :
    ofNatBE (width + 1) n = ofNatBE width (n / 256) ++ [UInt8.ofNat n] := by
  rw [ofNatBE, ofNatLE, List.reverse_cons, ofNatBE]

/-- Numbers of one width are ordered like their bytes. -/
theorem ofNatBE_lt {width m n : Nat} (h : m < n) (hn : n < capacity width) :
    ofNatBE width m < ofNatBE width n := by
  induction width generalizing m n with
  | zero =>
    have hzero : n < 1 := hn
    omega
  | succ width ih =>
    have hdigits : n < 256 * capacity width := hn
    rw [ofNatBE_succ, ofNatBE_succ]
    -- the byte split off is the last one, so the other digits are compared before it
    rcases Nat.lt_or_eq_of_le (Nat.div_le_div_right (c := 256) (Nat.le_of_lt h)) with hlt | heq
    · exact append_lt_append (ih hlt (by omega)) (by simp) _ _
    · -- the numbers differ in the last byte only
      rw [heq]
      apply List.append_left_lt
      rw [List.cons_lt_cons_iff, UInt8.lt_iff_toNat_lt, UInt8.toNat_ofNat', UInt8.toNat_ofNat']
      left
      omega

end Bytes

/-! ### The composite layout -/

/-- The group of a key is one of the groups. -/
theorem keyGroup_lt {maxParallelism : Nat} (h : 1 ≤ maxParallelism) (key : Bytes) :
    keyGroup key maxParallelism < maxParallelism := by
  rw [keyGroup, Nat.max_eq_left h]
  exact Nat.mod_lt _ h

namespace KeyBuilder

section

variable {maxParallelism group group' : Nat}

/-- A group fits the bytes that are laid out for it. -/
theorem group_lt_capacity (hgroup : group < maxParallelism) (hhigh : maxParallelism ≤ 32768) :
    group < Bytes.capacity (groupBytes maxParallelism) := by
  unfold groupBytes
  split
  · show group < 256
    omega
  · show group < 65536
    omega

/-- Storage keys name group, key and namespace. -/
theorem composite_eq_iff (hhigh : maxParallelism ≤ 32768) (hgroup : group < maxParallelism)
    (hgroup' : group' < maxParallelism) {key key' : Bytes} (hkey : key.length < 0x100000000)
    (hkey' : key'.length < 0x100000000) (ns ns' : Bytes) :
    composite maxParallelism group key ns = composite maxParallelism group' key' ns'
      ↔ group = group' ∧ key = key' ∧ ns = ns' := by
  constructor
  · intro h
    obtain ⟨hbytes, hrest⟩ := composite_inj hkey hkey' h
    exact ⟨Bytes.ofNatBE_inj (group_lt_capacity hgroup hhigh) (group_lt_capacity hgroup' hhigh)
      hbytes, hrest⟩
  · rintro ⟨rfl, rfl, rfl⟩
    rfl

/-- Storage keys stand in the order of their groups, whatever key and namespace are. -/
theorem composite_lt (hhigh : maxParallelism ≤ 32768) (hgroup' : group' < maxParallelism)
    (h : group < group') (key key' ns ns' : Bytes) :
    composite maxParallelism group key ns < composite maxParallelism group' key' ns' := by
  simp only [composite, List.append_assoc]
  exact Bytes.append_lt_append (Bytes.ofNatBE_lt h (group_lt_capacity hgroup' hhigh)) (by simp) _ _

end

end KeyBuilder

/-! ### The storage keys of handles -/

/-- A handle has its storage keys from its layout, at the group of its key. -/
theorem StateContext.IsAt.keyIn_eq_ok {name : String} {builder : KeyBuilder} {maxParallelism : Nat}
    {key ns : Option Part} {c : StateContext} {bytes storageKey : Bytes}
    (h : IsAt name builder maxParallelism key ns c) (hkey : c.keyIn bytes = .ok storageKey) :
    ∃ current, c.current = some ⟨keyGroup current maxParallelism, current⟩ ∧
      storageKey = builder (keyGroup current maxParallelism) current bytes := by
  unfold keyIn at hkey
  rw [h.builder_eq] at hkey
  rcases h.current with ⟨-, hnone⟩ | ⟨_, current, -, -, hsome⟩
  · rw [hnone] at hkey
    cases hkey
  · rw [hsome] at hkey
    exact ⟨current, hsome, (Except.ok.inj hkey).symm⟩

/-- For every number of groups that is accepted, storage keys name group, key and namespace, and
stand in the order of their groups. The group of a key is always one of the groups, so all of this
holds of the storage keys that handles ask for, in whatever namespace, wherever they were pointed,
and whatever was called on their backend. -/
theorem storage_keys_ordered_by_group :
    (∀ maxParallelism : Nat, 1 ≤ maxParallelism → maxParallelism ≤ 32768 →
      (∀ group group' : Nat, group < maxParallelism → group' < maxParallelism →
        ∀ key key' ns ns' : Bytes, key.length < 0x100000000 → key'.length < 0x100000000 →
          (KeyBuilder.composite maxParallelism group key ns
              = KeyBuilder.composite maxParallelism group' key' ns'
            ↔ group = group' ∧ key = key' ∧ ns = ns') ∧
          (group < group' → KeyBuilder.composite maxParallelism group key ns
            < KeyBuilder.composite maxParallelism group' key' ns')) ∧
      ∀ key, keyGroup key maxParallelism < maxParallelism) ∧
    ∀ (σ : Type) [Store σ] (store : σ) (config : BackendConfig) (b : Backend σ),
      b.Opened store config →
      1 ≤ config.maxParallelism ∧ config.maxParallelism ≤ 32768 ∧
      ∀ (name : String) (kind : StateKind) (codec : Descriptor) (start : StateContext)
        (b' : Backend σ), Backend.register name kind codec b = (.ok start, b') →
      ∀ (key ns : Option Part) (c : StateContext), start.PointedAt key ns c →
      ∀ bytes storageKey : Bytes, c.keyIn bytes = .ok storageKey →
        ∃ current, c.current = some ⟨keyGroup current config.maxParallelism, current⟩ ∧
          storageKey = KeyBuilder.composite config.maxParallelism
            (keyGroup current config.maxParallelism) current bytes := by
  constructor
  · intro maxParallelism hlow hhigh
    refine ⟨?_, keyGroup_lt hlow⟩
    intro group group' hgroup hgroup' key key' ns ns' hkey hkey'
    exact ⟨KeyBuilder.composite_eq_iff hhigh hgroup hgroup' hkey hkey' ns ns',
      fun h => KeyBuilder.composite_lt hhigh hgroup' h key key' ns ns'⟩
  · intro σ _ store config b hb
    obtain ⟨hlow, hhigh⟩ := hb.maxParallelism_bounds
    refine ⟨hlow, hhigh, ?_⟩
    intro name kind codec start b' hregister key ns c hc bytes storageKey hkey
    -- -- the context that registering returns is the one that the configuration determines
    obtain rfl := hb.register_context hregister
    exact hc.isAt.keyIn_eq_ok hkey

/-- Of 300 groups the one numbered 255 comes before the one numbered 256, and a byte of the key is
not taken for one of the namespace. A handle to a state of a new backend asks for a storage key of
its own group. -/
theorem storage_keys_ordered_with_two_byte_groups :
    KeyBuilder.composite 300 255 [9] [1] < KeyBuilder.composite 300 256 [] [] ∧
      KeyBuilder.composite 300 255 [9] [1] ≠ KeyBuilder.composite 300 255 [] [9, 1] ∧
      ∃ (b b' : Backend MemoryStore) (start c : StateContext) (storageKey current : Bytes),
        Backend.ofStore MemoryStore.empty .default = .ok b ∧
        Backend.register "s" .list ⟨"u64", 1⟩ b = (.ok start, b') ∧
        start.setKey (.unsigned 5) = .ok c ∧ c.keyIn [] = .ok storageKey ∧
        storageKey = KeyBuilder.composite 128 (keyGroup current 128) current [] := by
  obtain ⟨hlayout, hhandles⟩ := storage_keys_ordered_by_group
  obtain ⟨hkeys, -⟩ := hlayout 300 (by omega) (by omega)
  refine ⟨(hkeys 255 256 (by omega) (by omega) [9] [] [1] [] (by decide) (by decide)).2 (by omega),
    fun heq => ?_, ?_⟩
  · obtain ⟨-, hkey, -⟩ :=
      (hkeys 255 255 (by omega) (by omega) [9] [] [1] [9, 1] (by decide) (by decide)).1.1 heq
    cases hkey
  let b : Backend MemoryStore :=
    ⟨MemoryStore.empty, KeyBuilder.composite 128, .default, Table.empty⟩
  let start : StateContext := .fresh "s" (KeyBuilder.composite 128) 128
  let c : StateContext := { start with current := some ⟨keyGroup [5] 128, [5]⟩ }
  have hopened : Backend.ofStore MemoryStore.empty .default = .ok b := rfl
  have hregister : Backend.register "s" .list ⟨"u64", 1⟩ b
      = (.ok start, (Backend.register "s" .list ⟨"u64", 1⟩ b).2) := rfl
  have hset : start.setKey (.unsigned 5) = .ok c := rfl
  have hkey : c.keyIn [] = .ok (KeyBuilder.composite 128 (keyGroup [5] 128) [5] []) := rfl
  obtain ⟨-, -, hhandle⟩ := hhandles MemoryStore MemoryStore.empty .default b (.ofStore hopened)
  obtain ⟨current, -, hcurrent⟩ := hhandle "s" .list ⟨"u64", 1⟩ start _ hregister _ _ c
    (.setKey .start hset) [] _ hkey
  exact ⟨b, _, start, c, _, current, hopened, hregister, hset, hkey, hcurrent⟩

end AppendLists
