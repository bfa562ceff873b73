import AppendLists.Proofs.Key.Addressing
import AppendLists.Proofs.MessagePack.Value

namespace AppendLists

/-!
# Which keys are one key

A key or namespace is told by its MessagePack value: a character is the text of it, an absent value
is the one without content, a present value is its content, and a number is the same with and
without sign. Nothing else is identified, so two handles share a list only if both their keys and
their namespaces have one value.

* `Part.value?`, `Part.write?_eq`: the MessagePack value of a part, and that its bytes are the ones
  written;
* `Part.Short`: parts whose lengths and counts four bytes hold;
* `Part.serialize_eq_iff`: which parts have the same bytes;
* `StateContext.IsAt.storageKey_eq`, `Part.namespace_eq_iff`: the storage key of a handle, and which
  namespaces it tells apart;
* `storage_key_tells_key_and_namespace`: all of it together.
-/

namespace Part

open MessagePack

/-! ### The value of a part -/

/-- Numbers of 64 bits can be written, with a sign or without. -/
theorem unsigned_bounds (n : UInt64) :
    -0x8000000000000000 ≤ (n.toNat : Int) ∧ (n.toNat : Int) < 0x10000000000000000 := by
  have hn : n.toNat < 0x10000000000000000 := n.toNat_lt
  omega

theorem signed_bounds (i : Int64) :
    -0x8000000000000000 ≤ i.toInt ∧ i.toInt < 0x10000000000000000 := by
  have hi := int64_bounds i
  omega

mutual

/-- The MessagePack value of a part, if it has one. -/
def value? : Part → Option Value
  | .unit => some .nil
  | .bool b => some (.bool b)
  | .text s => some (.str s)
  | .char c => some (.str c.toString)
  | .unsigned n => some (.int n.toNat (unsigned_bounds n).1 (unsigned_bounds n).2)
  | .signed i => some (.int i.toInt (signed_bounds i).1 (signed_bounds i).2)
  | .bytes bs => some (.bin bs)
  | .absent => some .nil
  | .present p => value? p
  | .seq ps => (values? ps).map .array
  | .map entries => (valueEntries? entries).map .map
  | .unserializable => none

/-- The values of the parts of a sequence. -/
def values? : List Part → Option (List Value)
  | [] => some []
  | p :: ps => do return (← value? p) :: (← values? ps)

/-- The values of the keys and values of a map. -/
def valueEntries? : List (Part × Part) → Option (List (Value × Value))
  | [] => some []
  | (k, v) :: entries => do return (← value? k, ← value? v) :: (← valueEntries? entries)

end

mutual

/-- The bytes of a part are those of its value. -/
theorem write?_eq : (p : Part) → p.write? = p.value?.map Value.write
  | .unit => rfl
  | .bool b => rfl
  | .text s => rfl
  | .char c => rfl
  | .unsigned n => by
    rw [write?, value?, Option.map_some, Value.write, writeInt, if_pos (by omega),
      Int.toNat_natCast]
  | .signed i => rfl
  | .bytes bs => rfl
  | .absent => rfl
  | .present p => by rw [write?, value?, write?_eq p]
  | .seq ps => by
    rw [write?, value?, writeSeq?_eq ps, Option.map_map, Option.map_map]
    rfl
  | .map entries => by
    rw [write?, value?, writeEntries?_eq entries, Option.map_map, Option.map_map]
    rfl
  | .unserializable => rfl

/-- A sequence of parts is written as the sequence of their values. -/
theorem writeSeq?_eq : (ps : List Part) → writeSeq? ps = (values? ps).map Value.writeEach
  | [] => rfl
  | p :: ps => by
    rw [writeSeq?, values?, write?_eq p, writeSeq?_eq ps]
    cases value? p with
    | none => rfl
    | some v => cases values? ps <;> rfl

/-- So is a map of parts. -/
theorem writeEntries?_eq : (entries : List (Part × Part)) →
    writeEntries? entries = (valueEntries? entries).map Value.writeEntries
  | [] => rfl
  | (k, v) :: entries => by
    rw [writeEntries?, valueEntries?, write?_eq k, write?_eq v, writeEntries?_eq entries]
    cases value? k with
    | none => rfl
    | some _ =>
      cases value? v with
      | none => rfl
      | some _ => cases valueEntries? entries <;> rfl

end

/-- Parts that have a value, the lengths and counts of which four bytes hold. -/
def Short (p : Part) : Prop := ∃ v, p.value? = some v ∧ v.Short

/-- Such a part has bytes. -/
theorem Short.exists_write {p : Part} (h : p.Short) :
    ∃ v, p.value? = some v ∧ v.Short ∧ p.write? = some v.write := by
  obtain ⟨v, hvalue, hv⟩ := h
  exact ⟨v, hvalue, hv, by rw [write?_eq, hvalue, Option.map_some]⟩

/-- Parts have the same bytes if they have the same value. -/
theorem write?_eq_iff {p q : Part} (hp : p.Short) (hq : q.Short) :
    p.write? = q.write? ↔ p.value? = q.value? := by
  constructor
  · intro h
    obtain ⟨v, hpv, hv, hpw⟩ := hp.exists_write
    obtain ⟨w, hqv, hw, hqw⟩ := hq.exists_write
    rw [hpw, hqw] at h
    rw [hpv, hqv, Value.write_inj hv hw (Option.some.inj h)]
  · intro h
    rw [write?_eq, write?_eq, h]

/-- Parts are serialized alike if they have the same value, and only then. -/
theorem serialize_eq_iff {p q : Part} (hp : p.Short) (hq : q.Short) :
    p.serialize = q.serialize ↔ p.value? = q.value? := by
  rw [← write?_eq_iff hp hq]
  obtain ⟨v, -, -, hpw⟩ := hp.exists_write
  obtain ⟨w, -, -, hqw⟩ := hq.exists_write
  rw [serialize, serialize, hpw, hqw]
  simp

end Part

/-! ### What handles point at -/

namespace StateContext.IsAt

variable {name : String} {builder : KeyBuilder} {maxParallelism : Nat} {key key' : Part}
  {ns ns' : Option Part} {c c' : StateContext}

/-- The storage key of a handle whose key was set. -/
theorem storageKey_eq
    (h : IsAt name (KeyBuilder.composite maxParallelism) maxParallelism (some key) ns c) :
    ∃ bytes, key.write? = some bytes ∧ c.storageKey = .ok (address maxParallelism bytes c.ns) := by
  rcases h.current with ⟨hnone, -⟩ | ⟨_, bytes, hsome, hbytes, hcurrent⟩
  · cases hnone
  · obtain rfl := Option.some.inj hsome
    refine ⟨bytes, hbytes, ?_⟩
    rw [storageKey, keyIn, hcurrent, h.builder_eq]
    rfl

/-- A namespace that was set is not the empty one. -/
theorem ns_ne_nil {p : Part} (h : IsAt name builder maxParallelism (some key) (some p) c)
    (hp : p.Short) : c.ns ≠ [] := by
  obtain ⟨v, -, hv, hwrite⟩ := hp.exists_write
  rcases h.ns with ⟨hnone, -⟩ | ⟨_, hsome, hns⟩
  · cases hnone
  · obtain rfl := Option.some.inj hsome
    rw [← Option.some.inj (hwrite.symm.trans hns)]
    exact MessagePack.Value.write_ne_nil hv

/-- Handles are in one namespace if theirs have one value, or none was set. -/
theorem ns_eq_iff (h : IsAt name builder maxParallelism (some key) ns c)
    (h' : IsAt name builder maxParallelism (some key') ns' c') (hns : ∀ p ∈ ns, p.Short)
    (hns' : ∀ p ∈ ns', p.Short) : c.ns = c'.ns ↔ ns.map Part.value? = ns'.map Part.value? := by
  -- no part is written without bytes, so an empty namespace is one that was not set
  rcases h.ns with ⟨rfl, hempty⟩ | ⟨p, rfl, hwrite⟩
  · rcases h'.ns with ⟨rfl, hempty'⟩ | ⟨p', rfl, -⟩
    · simp [hempty, hempty']
    · rw [hempty]
      simpa using (h'.ns_ne_nil (hns' p' rfl)).symm
  · rcases h'.ns with ⟨rfl, hempty'⟩ | ⟨p', rfl, hwrite'⟩
    · rw [hempty']
      simpa using h.ns_ne_nil (hns p rfl)
    · rw [Option.map_some, Option.map_some, Option.some_inj,
        ← Part.write?_eq_iff (hns p rfl) (hns' p' rfl), hwrite, hwrite', Option.some_inj]

/-- Handles have one storage key if their keys have one value, and they are in one namespace. -/
theorem storageKey_eq_iff
    (h : IsAt name (KeyBuilder.composite maxParallelism) maxParallelism (some key) ns c)
    (h' : IsAt name (KeyBuilder.composite maxParallelism) maxParallelism (some key') ns' c')
    (hkey : key.Short) (hkey' : key'.Short)
    (hlen : ∀ bs, key.serialize = .ok bs → bs.length < 0x100000000)
    (hlen' : ∀ bs, key'.serialize = .ok bs → bs.length < 0x100000000) :
    c.storageKey = c'.storageKey ↔ key.value? = key'.value? ∧ c.ns = c'.ns := by
  obtain ⟨bytes, hbytes, hstorage⟩ := h.storageKey_eq
  obtain ⟨bytes', hbytes', hstorage'⟩ := h'.storageKey_eq
  have hshort := hlen bytes (Part.serialize_eq_ok_iff.2 hbytes)
  have hshort' := hlen' bytes' (Part.serialize_eq_ok_iff.2 hbytes')
  rw [hstorage, hstorage', Except.ok.injEq, address_inj hshort hshort',
    ← Part.write?_eq_iff hkey hkey', hbytes, hbytes', Option.some_inj]

end StateContext.IsAt

/-- Parts have the same bytes if and only if they have the same MessagePack value. So handles to one
state have one storage key if and only if their keys have the same value and so have their
namespaces, one that was never set being like no other. -/
theorem storage_key_tells_key_and_namespace :
    (∀ p q : Part, p.Short → q.Short → (p.serialize = q.serialize ↔ p.value? = q.value?)) ∧
    ∀ (name : String) (maxParallelism : Nat) (key key' : Part) (ns ns' : Option Part)
      (c c' : StateContext),
      (StateContext.fresh name (KeyBuilder.composite maxParallelism) maxParallelism).PointedAt
        (some key) ns c →
      (StateContext.fresh name (KeyBuilder.composite maxParallelism) maxParallelism).PointedAt
        (some key') ns' c' →
      key.Short → key'.Short → (∀ p ∈ ns, p.Short) → (∀ p ∈ ns', p.Short) →
      (∀ bs, key.serialize = .ok bs → bs.length < 0x100000000) →
      (∀ bs, key'.serialize = .ok bs → bs.length < 0x100000000) →
      (c.storageKey = c'.storageKey
        ↔ key.value? = key'.value? ∧ ns.map Part.value? = ns'.map Part.value?) ∧
      (ns = none → ns' ≠ none → c.storageKey ≠ c'.storageKey) := by
  refine ⟨fun p q hp hq => Part.serialize_eq_iff hp hq, ?_⟩
  intro name maxParallelism key key' ns ns' c c' h h' hkey hkey' hns hns' hlen hlen'
  have hiff : c.storageKey = c'.storageKey
      ↔ key.value? = key'.value? ∧ ns.map Part.value? = ns'.map Part.value? := by
    rw [h.isAt.storageKey_eq_iff h'.isAt hkey hkey' hlen hlen', h.isAt.ns_eq_iff h'.isAt hns hns']
  refine ⟨hiff, ?_⟩
  rintro rfl hset heq
  obtain ⟨-, hvalues⟩ := hiff.1 heq
  exact hset (Option.map_eq_none_iff.1 hvalues.symm)

/-- A handle at the character `x` and the signed number 5 has the storage key of one at the text
`x` and the unsigned number 5, and none of a handle whose namespace was not set. -/
theorem storage_key_of_character_and_signed_number :
    (Part.char 'x').serialize = (Part.text "x").serialize ∧
    ∃ c c' c'' : StateContext,
      ((StateContext.fresh "s" (KeyBuilder.composite 128) 128).setKey (.char 'x')).bind
        (StateContext.setNamespace (.signed 5)) = .ok c ∧
      ((StateContext.fresh "s" (KeyBuilder.composite 128) 128).setKey (.text "x")).bind
        (StateContext.setNamespace (.unsigned 5)) = .ok c' ∧
      (StateContext.fresh "s" (KeyBuilder.composite 128) 128).setKey (.text "x") = .ok c'' ∧
      c.storageKey = c'.storageKey ∧ c''.storageKey ≠ c'.storageKey := by
  obtain ⟨hparts, hhandles⟩ := storage_key_tells_key_and_namespace
  have hchar : (Part.char 'x').Short := ⟨.str "x", rfl, .str (by decide)⟩
  have htext : (Part.text "x").Short := ⟨.str "x", rfl, .str (by decide)⟩
  have hsigned : (Part.signed 5).Short := ⟨_, rfl, .int _ _ _⟩
  have hunsigned : (Part.unsigned 5).Short := ⟨_, rfl, .int _ _ _⟩
  have hlen : ∀ bs, (Part.text "x").serialize = .ok bs → bs.length < 0x100000000 := by
    rintro _ ⟨⟩
    decide
  have hsame : (Part.char 'x').serialize = (Part.text "x").serialize :=
    (hparts _ _ hchar htext).2 rfl
  refine ⟨hsame, _, _, _, rfl, rfl, rfl, ?_, ?_⟩
  · exact ((hhandles "s" 128 (.char 'x') (.text "x") (some (.signed 5)) (some (.unsigned 5)) _ _
      (.setNamespace (.setKey .start rfl) rfl) (.setNamespace (.setKey .start rfl) rfl) hchar htext
      (by rintro _ ⟨⟩; exact hsigned) (by rintro _ ⟨⟩; exact hunsigned) (hsame ▸ hlen) hlen).1).2
      ⟨rfl, rfl⟩
  · exact (hhandles "s" 128 (.text "x") (.text "x") none (some (.unsigned 5)) _ _
      (.setKey .start rfl) (.setNamespace (.setKey .start rfl) rfl) htext htext
      (by rintro _ ⟨⟩) (by rintro _ ⟨⟩; exact hunsigned) hlen hlen).2 rfl (by simp)

end AppendLists
