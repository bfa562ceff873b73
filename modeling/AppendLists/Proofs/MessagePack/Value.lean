import AppendLists.Proofs.MessagePack.Formats

namespace AppendLists

namespace MessagePack

/-!
# MessagePack values

What MessagePack tells apart: absent values, truth values, integers whatever their type, texts, byte
strings, arrays and maps. The written form says which value it is and where it ends, so that what
follows it changes neither.

* `Value`, `Value.write`: the values and their bytes;
* `Value.Short`: values whose lengths and counts four bytes hold;
* `Value.head`, `Value.body`, `Value.reads_head`: the marker, and what stands behind it;
* `Value.Alike`, `Value.alike_of_head_eq`: what two values with one marker have in common;
* `Value.Determined`, `Value.Short.determined`: no written value continues another;
* `Value.write_inj`: values are told apart by their bytes.
-/

/-- A value. -/
inductive Value where
  /-- No value. -/
  | nil
  /-- A truth value. -/
  | bool (b : Bool)
  /-- An integer that 64 bits hold, with or without sign. -/
  | int (i : Int) (low : -0x8000000000000000 ≤ i) (high : i < 0x10000000000000000)
  /-- A text. -/
  | str (s : String)
  /-- A byte string. -/
  | bin (bs : Bytes)
  /-- Several values. -/
  | array (vs : List Value)
  /-- Keys with values, in the given order. -/
  | map (entries : List (Value × Value))

namespace Value

mutual

/-- The bytes of a value. -/
def write : Value → Bytes
  | .nil => writeNil
  | .bool b => writeBool b
  | .int i _ _ => writeInt i
  | .str s => writeString s
  | .bin bs => writeBytes bs
  | .array vs => writeArray (writeEach vs)
  | .map entries => writeMap (writeEntries entries)

/-- The bytes of each of several values. -/
def writeEach : List Value → List Bytes
  | [] => []
  | v :: vs => write v :: writeEach vs

/-- The bytes of each key and value of a map. -/
def writeEntries : List (Value × Value) → List (Bytes × Bytes)
  | [] => []
  | (k, v) :: entries => (write k, write v) :: writeEntries entries

end

theorem writeEach_eq (vs : List Value) : writeEach vs = vs.map write := by
  induction vs with
  | nil => rfl
  | cons v vs ih => rw [writeEach, ih, List.map_cons]

theorem writeEntries_eq (entries : List (Value × Value)) :
    writeEntries entries = entries.map fun e => (e.1.write, e.2.write) := by
  induction entries with
  | nil => rfl
  | cons e entries ih => rw [writeEntries, ih, List.map_cons]

/-- Values whose lengths and counts four bytes hold, at every depth. -/
inductive Short : Value → Prop where
  /-- No value. -/
  | nil : Short .nil
  /-- A truth value. -/
  | bool (b : Bool) : Short (.bool b)
  /-- An integer. -/
  | int (i : Int) (low : -0x8000000000000000 ≤ i) (high : i < 0x10000000000000000) :
      Short (.int i low high)
  /-- A text. -/
  | str {s : String} (h : (Utf8.encode s).length < 0x100000000) : Short (.str s)
  /-- A byte string. -/
  | bin {bs : Bytes} (h : bs.length < 0x100000000) : Short (.bin bs)
  /-- Several values. -/
  | array {vs : List Value} (h : vs.length < 0x100000000) (hvs : ∀ v ∈ vs, Short v) :
      Short (.array vs)
  /-- Keys with values. -/
  | map {entries : List (Value × Value)} (h : entries.length < 0x100000000)
      (hkeys : ∀ e ∈ entries, Short e.1) (hvalues : ∀ e ∈ entries, Short e.2) :
      Short (.map entries)

/-! ### Markers -/

/-- What the marker of a value announces. -/
def head : Value → Head
  | .nil => .nil
  | .bool b => .bool b
  | .int i _ _ => intHead i
  | .str s => .str (Utf8.encode s).length
  | .bin bs => .bin bs.length
  | .array vs => .array vs.length
  | .map entries => .map entries.length

/-- What stands behind the marker of a value. -/
def body : Value → Bytes
  | .nil | .bool _ | .int _ _ _ => []
  | .str s => Utf8.encode s
  | .bin bs => bs
  | .array vs => (vs.map write).flatten
  | .map entries => (entries.map fun e => e.1.write ++ e.2.write).flatten

/-- Before a byte string of so many bytes. -/
theorem reads_bytesHeader {n : Nat} (h : n < 0x100000000) :
    Reader.Reads readHead (bytesHeader n) (.bin n) := by
  unfold bytesHeader
  split
  · case isTrue hlt => exact reads_marker (fun _ => rfl) hlt
  · split
    · case isTrue hlt => exact reads_marker (fun _ => rfl) hlt
    · exact reads_marker (fun _ => rfl) h

/-- A written value is a marker and what stands behind it. -/
theorem reads_head {v : Value} (h : v.Short) (tail : Bytes) :
    readHead (v.write ++ tail) = some (v.head, v.body ++ tail) := by
  cases h with
  | nil => rfl
  | bool b => cases b <;> rfl
  | int i low high => exact reads_writeInt low high tail
  | str h => rw [write, writeString, List.append_assoc, reads_stringHeader h, head, body]
  | bin h => rw [write, writeBytes, List.append_assoc, reads_bytesHeader h, head, body]
  | array h _ =>
    rw [write, writeEach_eq, writeArray, List.append_assoc, List.length_map, reads_arrayHeader h,
      head, body]
  | map h _ _ =>
    rw [write, writeEntries_eq, writeMap, List.append_assoc, List.length_map, reads_mapHeader h,
      head, body, List.map_map]
    rfl

/-- There is no value without bytes. -/
theorem write_ne_nil {v : Value} (h : v.Short) : v.write ≠ [] := by
  intro hnil
  have hread := reads_head h []
  rw [hnil] at hread
  cases hread

/-- What two values with one marker have in common. -/
inductive Alike : Value → Value → Prop where
  /-- The marker is all there is. -/
  | nil : Alike .nil .nil
  /-- The marker is the truth value. -/
  | bool (b : Bool) : Alike (.bool b) (.bool b)
  /-- The number belongs to the marker. -/
  | int (i : Int) (low : -0x8000000000000000 ≤ i) (high : i < 0x10000000000000000) :
      Alike (.int i low high) (.int i low high)
  /-- Texts have one length. -/
  | str {s t : String} (h : (Utf8.encode s).length = (Utf8.encode t).length) :
      Alike (.str s) (.str t)
  /-- Byte strings have one length. -/
  | bin {bs cs : Bytes} (h : bs.length = cs.length) : Alike (.bin bs) (.bin cs)
  /-- Arrays have one count. -/
  | array {vs ws : List Value} (h : vs.length = ws.length) : Alike (.array vs) (.array ws)
  /-- Maps have one count. -/
  | map {entries others : List (Value × Value)} (h : entries.length = others.length) :
      Alike (.map entries) (.map others)

/-- The marker of an integer is that of no other integer. -/
theorem intHead_inj {i j : Int} (h : intHead i = intHead j) : i = j := by
  unfold intHead at h
  split at h
  · split at h
    · injection h
      omega
    · cases h
  · split at h
    · cases h
    · injection h

/-- A marker tells the kind of value, with its length or count. -/
theorem alike_of_head_eq {v w : Value} (h : v.head = w.head) : Alike v w := by
  cases v <;> cases w
  case nil.nil => exact .nil
  case bool.bool =>
    injection h with h
    exact h ▸ .bool _
  case int.int =>
    obtain rfl := intHead_inj h
    exact .int _ _ _
  case str.str => exact .str (Head.str.inj h)
  case bin.bin => exact .bin (Head.bin.inj h)
  case array.array => exact .array (Head.array.inj h)
  case map.map => exact .map (Head.map.inj h)
  -- no other kind of value has the marker of an integer, which is unsigned or signed
  all_goals
    first
    | cases h
    | simp only [head, intHead] at h
      split at h <;> cases h

/-! ### Where a value ends -/

/-- Whether a written value is continued by no other. -/
def Determined (v : Value) : Prop :=
  ∀ (w : Value) (s t : Bytes), w.Short → v.write ++ s = w.write ++ t → v = w ∧ s = t

/-- Behind the marker only values of one kind have to be told apart. -/
theorem Short.determined_of_alike {v : Value} (hv : v.Short)
    (hbody : ∀ (w : Value) (s t : Bytes), w.Short → Alike v w → v.body ++ s = w.body ++ t →
      v = w ∧ s = t) : v.Determined := by
  intro w s t hw h
  have hread := reads_head hv s
  rw [h, reads_head hw t] at hread
  obtain ⟨hhead, hrest⟩ := Prod.mk.inj (Option.some.inj hread)
  exact hbody w s t hw (alike_of_head_eq hhead.symm) hrest.symm

/-- As many pieces one after the other end where others do, if each one is told from the others
whatever follows it. -/
theorem flatten_append_inj {α : Type} {f : α → Bytes} {xs ys : List α}
    (hf : ∀ x ∈ xs, ∀ y ∈ ys, ∀ s t : Bytes, f x ++ s = f y ++ t → x = y ∧ s = t)
    (hlen : xs.length = ys.length) {s t : Bytes}
    (h : (xs.map f).flatten ++ s = (ys.map f).flatten ++ t) : xs = ys ∧ s = t := by
  induction xs generalizing ys with
  | nil =>
    obtain rfl := List.length_eq_zero_iff.1 hlen.symm
    exact ⟨rfl, h⟩
  | cons x xs ih =>
    cases ys with
    | nil => cases hlen
    | cons y ys =>
      have hothers : ∀ x ∈ xs, ∀ y ∈ ys, ∀ s t : Bytes, f x ++ s = f y ++ t → x = y ∧ s = t :=
        fun x hx y hy => hf x (List.mem_cons_of_mem _ hx) y (List.mem_cons_of_mem _ hy)
      simp only [List.map_cons, List.flatten_cons, List.append_assoc] at h
      obtain ⟨hfirst, hrest⟩ := hf x List.mem_cons_self y List.mem_cons_self _ _ h
      obtain ⟨hsame, hend⟩ := ih hothers (Nat.succ_inj.1 hlen) hrest
      exact ⟨by rw [hfirst, hsame], hend⟩

/-- A key and its value together are told from others. -/
theorem Determined.entry {e e' : Value × Value} (hkey : e.1.Determined) (hvalue : e.2.Determined)
    (hkey' : e'.1.Short) (hvalue' : e'.2.Short) {s t : Bytes}
    (h : (e.1.write ++ e.2.write) ++ s = (e'.1.write ++ e'.2.write) ++ t) : e = e' ∧ s = t := by
  rw [List.append_assoc, List.append_assoc] at h
  obtain ⟨hfirst, hrest⟩ := hkey _ _ _ hkey' h
  obtain ⟨hsecond, hend⟩ := hvalue _ _ _ hvalue' hrest
  exact ⟨Prod.ext hfirst hsecond, hend⟩

/-- A written value says which one it is and where it ends. -/
theorem Short.determined {v : Value} (hv : v.Short) : v.Determined := by
  -- on the bounds, which come with those of the values inside
  induction hv with
  | nil =>
    apply Short.nil.determined_of_alike
    rintro _ s t - ⟨⟩ hrest
    exact ⟨rfl, hrest⟩
  | bool b =>
    apply (Short.bool b).determined_of_alike
    rintro _ s t - ⟨⟩ hrest
    exact ⟨rfl, hrest⟩
  | int i low high =>
    apply (Short.int i low high).determined_of_alike
    rintro _ s t - ⟨⟩ hrest
    exact ⟨rfl, hrest⟩
  | str hs =>
    apply (Short.str hs).determined_of_alike
    intro w s t _ halike hrest
    cases halike with
    | str hlen =>
      obtain ⟨hbytes, hend⟩ := List.append_inj hrest hlen
      exact ⟨congrArg Value.str (Utf8.encode_inj hbytes), hend⟩
  | bin hbs =>
    apply (Short.bin hbs).determined_of_alike
    intro w s t _ halike hrest
    cases halike with
    | bin hlen =>
      obtain ⟨hbytes, hend⟩ := List.append_inj hrest hlen
      exact ⟨congrArg Value.bin hbytes, hend⟩
  | array hcount hvs ih =>
    apply (Short.array hcount hvs).determined_of_alike
    intro w s t hw halike hrest
    cases halike with
    | array hlen =>
      cases hw with
      | array _ hws =>
        obtain ⟨hvalues, hend⟩ :=
          flatten_append_inj (fun v hv w hw s t => ih v hv w s t (hws w hw)) hlen hrest
        exact ⟨congrArg Value.array hvalues, hend⟩
  | map hcount hkeys hvalues ihkeys ihvalues =>
    apply (Short.map hcount hkeys hvalues).determined_of_alike
    intro w s t hw halike hrest
    cases halike with
    | map hlen =>
      cases hw with
      | map _ hkeys' hvalues' =>
        obtain ⟨hentries, hend⟩ := flatten_append_inj (fun e he e' he' _ _ =>
          (ihkeys e he).entry (ihvalues e he) (hkeys' e' he') (hvalues' e' he')) hlen hrest
        exact ⟨congrArg Value.map hentries, hend⟩

/-- Values are told apart by their bytes. -/
theorem write_inj {v w : Value} (hv : v.Short) (hw : w.Short) (h : v.write = w.write) : v = w :=
  (hv.determined w [] [] hw (by rw [h])).1

end Value

end MessagePack

end AppendLists
