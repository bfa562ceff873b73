import AppendLists.Catalogue.Codec
import AppendLists.Proofs.Codec.Exact
import AppendLists.Proofs.ListFormat.Reading

namespace AppendLists

/-!
# What the list format accepts

For a codec that reads back what it writes and reads nothing else, the lists that are decoded are
the written ones, with one delimiter tolerated behind the last element. Everything else is corrupt:
elements cut off, a length beyond the input, text that is no text, delimiters that are missing,
doubled or in front.

* `decodeNext_eq_some`, `corrupt_of_decodeNext`: what one step of reading can come to;
* `ListForm`: the written form of a list, and what is tolerated behind it;
* `Codec.Exact.form_of_reads`, `Codec.Conforming.decodeFrom_of_form`: what is read to its end has the
  form of the list, and what has the form is read;
* `Codec.Strict.decodeList_eq_ok_iff`, `Codec.Strict.corrupt_of_no_form`: stored values;
* `CodecSpec.FixedLayout`, `CodecSpec.accepts_exactly_written_lists`: the codecs of a fixed layout.
-/

variable {α : Type} {codec : Codec α}

/-- The bytes are the written form of the list, or that with a delimiter behind the last element. -/
def ListForm (codec : Codec α) (xs : List α) (b : Bytes) : Prop :=
  encodeList codec xs = .ok b
    ∨ xs ≠ [] ∧ ∃ bs, encodeList codec xs = .ok bs ∧ b = bs ++ [delimiter]

/-! ### One step of reading -/

/-- Behind an element the input ends, or there is the delimiter. -/
theorem decodeNext_eq_some {c c' : Cursor} {x : α} (h : decodeNext codec c = .ok (some (x, c'))) :
    ∃ d, codec.decode c = .ok (x, d)
      ∧ (d.rest = [] ∧ c'.rest = [] ∨ d.rest = delimiter :: c'.rest) := by
  obtain ⟨-, d, hdecode, -, ⟨hend, rfl⟩ | ⟨rest, hmore, rfl⟩⟩ := decodeNext_eq_some_iff.1 h
  · exact ⟨c', hdecode, .inl ⟨hend, hend⟩⟩
  · refine ⟨d, hdecode, .inr ?_⟩
    rw [Cursor.rest_skip, hmore]
    rfl

/-- A step that fails is corrupt, if the codec says so of what it does not read. -/
theorem corrupt_of_decodeNext (hr : codec.ReportsCorrupt) {c : Cursor} {e : StateError}
    (h : decodeNext codec c = .error e) : ∃ reason, e = .corrupt reason := by
  unfold decodeNext at h
  split at h
  · cases h
  · split at h
    · case h_1 e' hdecode =>
      obtain rfl : e' = e := Except.error.inj h
      exact hr c e' hdecode
    · split at h
      · exact ⟨_, (Except.error.inj h).symm⟩
      · split at h
        · cases h
        · split at h
          · cases h
          · exact ⟨_, (Except.error.inj h).symm⟩

/-! ### Whole lists -/

/-- An element in front of written bytes. -/
theorem ListForm.cons (hc : codec.Appending) {x : α} {xs : List α} {a b : Bytes}
    (ha : codec.encode x = .ok a) (h : ListForm codec xs b) : ListForm codec (x :: xs) (a ++ delimiter :: b) := by
  have hne : x :: xs ≠ [] := List.cons_ne_nil x xs
  by_cases hxs : xs = []
  · -- the delimiter behind the only element is the tolerated one
    subst hxs
    have hb : b = [] := by
      rcases h with hb | ⟨hnil, _⟩
      · exact (Except.ok.inj hb).symm
      · exact absurd rfl hnil
    rw [hb]
    exact .inr ⟨hne, a, by rw [encodeList_singleton, ha], rfl⟩
  · rcases h with hb | ⟨_, bs, hbs, rfl⟩
    · exact .inl ((hc.encodeList_cons_eq_ok_iff hxs).2 ⟨a, b, ha, hb, rfl⟩)
    · refine .inr ⟨hne, a ++ delimiter :: bs, ?_, by simp⟩
      exact (hc.encodeList_cons_eq_ok_iff hxs).2 ⟨a, bs, ha, hbs, rfl⟩

/-- Only lists of encodable elements have a form. -/
theorem ListForm.writes (hc : codec.Appending) {xs : List α} {b : Bytes}
    (h : ListForm codec xs b) : ∀ x ∈ xs, codec.Writes x := by
  rcases h with hb | ⟨_, bs, hbs, _⟩
  · exact hc.encodeList_isOk_iff.1 ⟨b, hb⟩
  · exact hc.encodeList_isOk_iff.1 ⟨bs, hbs⟩

/-- What is read to the end of input was written, or has a delimiter behind what was written. -/
theorem Codec.Exact.form_of_reads (he : codec.Exact) (hc : codec.Appending) {c d : Cursor}
    {xs : List α} (h : codec.Reads c xs d) (hend : d.rest = []) : ListForm codec xs c.rest := by
  induction h with
  | here c =>
    rw [hend]
    exact .inl encodeList_nil
  | @next c c' d x xs hnext hreads ih =>
    obtain ⟨d', hdecode, hbehind⟩ := decodeNext_eq_some hnext
    obtain ⟨a, ha, hfront⟩ := he c x d' hdecode
    rcases hbehind with ⟨hlast, hnone⟩ | hmore
    · -- the input ends behind the element, so no other one is read
      cases hreads with
      | here =>
        rw [hfront, hlast, List.append_nil]
        exact .inl (by rw [encodeList_singleton, ha])
      | next hnext' _ => exact absurd hnone (rest_ne_nil_of_decodeNext hnext')
    · rw [hfront, hmore]
      exact .cons hc ha (ih hend)

/-- A list that is not decoded is corrupt. -/
theorem Codec.ReportsCorrupt.corrupt_of_decodeFrom (hr : codec.ReportsCorrupt) {c : Cursor}
    {e : StateError} (h : codec.decodeFrom c = some (.error e)) : ∃ reason, e = .corrupt reason := by
  obtain ⟨xs, d, hreads, hend | ⟨e', hnext⟩⟩ := (ends_of_decodeFrom h).exists_reads
  · rw [hreads.decodeFrom_eq, decodeFrom_end hend] at h
    cases Option.some.inj h
  · rw [hreads.decodeFrom_eq, decodeFrom_of_next_error hnext] at h
    obtain rfl : e' = e := Except.error.inj (Option.some.inj h)
    exact corrupt_of_decodeNext hr hnext

namespace Codec.Conforming

variable (hc : codec.Conforming)
include hc

/-- A delimiter behind the last element is passed over. -/
theorem decodeFrom_trailing {xs : List α} (hxs : xs ≠ []) {bs : Bytes}
    (h : encodeList codec xs = .ok bs) {c : Cursor} (hrest : c.rest = bs ++ [delimiter]) :
    codec.decodeFrom c = some (.ok xs) := by
  induction xs generalizing bs c with
  | nil => exact absurd rfl hxs
  | cons x xs ih =>
    by_cases hnil : xs = []
    · subst hnil
      rw [encodeList_singleton] at h
      obtain ⟨c', hnext, -, hend⟩ := (hc.readsBack h).inList.decodeNext_delimited hrest
      rw [decodeFrom_next hnext, decodeFrom_end hend]
      rfl
    · obtain ⟨a, b, ha, hb, rfl⟩ := (hc.appending.encodeList_cons_eq_ok_iff hnil).1 h
      have hrest : c.rest = a ++ delimiter :: (b ++ [delimiter]) := by simpa using hrest
      obtain ⟨c', hnext, -, hafter⟩ := (hc.readsBack ha).inList.decodeNext_delimited hrest
      rw [decodeFrom_next hnext, ih hnil hb hafter]
      rfl

/-- What has the form of a list is read as that list. -/
theorem decodeFrom_of_form {xs : List α} {c : Cursor} (h : ListForm codec xs c.rest) :
    codec.decodeFrom c = some (.ok xs) := by
  rcases h with hbs | ⟨hxs, bs, hbs, hrest⟩
  · exact hc.decodeFrom_encodeList hbs rfl
  · exact hc.decodeFrom_trailing hxs hbs hrest

end Codec.Conforming

namespace Codec.Strict

variable (hs : codec.Strict) (hforward : codec.Forward)
include hs hforward

/-- The lists that are decoded from some bytes are those that the bytes are a form of. -/
theorem decodeList_eq_ok_iff {b : Bytes} {xs : List α} :
    decodeList codec (some b) = .ok xs ↔ ListForm codec xs b := by
  rw [hforward.decodeList_eq_iff]
  constructor
  · intro h
    obtain ⟨d, hreads, hend⟩ := decodeFrom_eq_ok_iff.1 h
    exact hs.exactness.form_of_reads hs.conforming.appending hreads hend
  · exact fun h => hs.conforming.decodeFrom_of_form h

/-- Bytes that are a form of no list are corrupt. -/
theorem corrupt_of_no_form {b : Bytes} (h : ∀ xs, ¬ ListForm codec xs b) :
    ∃ reason, decodeList codec (some b) = .error (.corrupt reason) := by
  cases hdecode : decodeList codec (some b) with
  | ok xs => exact absurd ((hs.decodeList_eq_ok_iff hforward).1 hdecode) (h xs)
  | error e =>
    obtain ⟨reason, rfl⟩ := hs.corruption.corrupt_of_decodeFrom (hforward.decodeList_eq_iff.1 hdecode)
    exact ⟨reason, rfl⟩

end Codec.Strict

/-! ### The codecs of a fixed layout -/

namespace CodecSpec

/-- Numbers, texts and byte strings of a fixed layout, stamped any number of times. -/
def FixedLayout : CodecSpec → Prop
  | .uint64 | .int64 | .text | .bytes => True
  | .stamped inner => inner.FixedLayout
  | _ => False

theorem FixedLayout.strict {spec : CodecSpec} (h : spec.FixedLayout) : spec.codec.Strict := by
  induction spec with
  | uint64 => exact Codec.strict_u64.embed (fun _ => rfl) fun y x hy => by cases y <;> simp_all
  | int64 => exact Codec.strict_i64.embed (fun _ => rfl) fun y x hy => by cases y <;> simp_all
  | text =>
    refine Codec.strict_string.embed (fun _ => rfl) fun y x hy => ?_
    cases y <;> simp_all [codec.textOf]
  | bytes => exact Codec.strict_bytes.embed (fun _ => rfl) fun y x hy => by cases y <;> simp_all
  | stamped inner ih =>
    refine (ih h).stamped.embed (fun _ => rfl) fun y x hy => ?_
    cases y <;> simp only [reduceCtorEq, Option.some.injEq] at hy
    subst hy
    rfl
  | packed | unframed | greedy | zero | lossy => exact h.elim

/-- The decoder of a codec of a fixed layout accepts the written lists of encodable elements, with
or without one delimiter behind the last element, as those lists. Everything else is corrupt. -/
theorem accepts_exactly_written_lists (spec : CodecSpec) (h : spec.FixedLayout) (b : Bytes) :
    (∀ xs : List Item, decodeList spec.codec (some b) = .ok xs
      ↔ (∀ x ∈ xs, spec.codec.Writes x) ∧ ListForm spec.codec xs b) ∧
    ((∀ xs : List Item, ¬ ((∀ x ∈ xs, spec.codec.Writes x) ∧ ListForm spec.codec xs b)) →
      ∃ reason, decodeList spec.codec (some b) = .error (.corrupt reason)) := by
  have hstrict := h.strict
  have happending := hstrict.conforming.appending
  refine ⟨fun xs => ?_, fun hother => hstrict.corrupt_of_no_form spec.forward fun xs hform =>
    hother xs ⟨hform.writes happending, hform⟩⟩
  rw [hstrict.decodeList_eq_ok_iff spec.forward]
  exact ⟨fun hform => ⟨hform.writes happending, hform⟩, fun hform => hform.2⟩

/-- A stamped delimiter, with the tolerated delimiter behind it. -/
theorem accepts_trailing_delimiter :
    let item := Item.stamped (.bytes [delimiter]) 44
    let written : Bytes := [0, 0, 0, 0, 0, 0, 0, 44, 1, 0, 0, 0, delimiter]
    (CodecSpec.stamped .bytes).FixedLayout ∧
      decodeList (CodecSpec.stamped .bytes).codec (some (written ++ [delimiter])) = .ok [item] := by
  intro item written
  have hfixed : (CodecSpec.stamped .bytes).FixedLayout := trivial
  have hwritten : encodeList (CodecSpec.stamped .bytes).codec [item] = .ok written := rfl
  refine ⟨hfixed, ((accepts_exactly_written_lists _ hfixed _).1 [item]).2 ⟨?_, ?_⟩⟩
  · exact hfixed.strict.conforming.appending.encodeList_isOk_iff.1 ⟨written, hwritten⟩
  · exact .inr ⟨List.cons_ne_nil _ _, written, hwritten, rfl⟩

end CodecSpec

end AppendLists
