import AppendLists.Proofs.Call
import AppendLists.Transform

namespace AppendLists

/-!
# Written lists read back

For a conforming codec the written form of a list decodes to the list, two written lists joined by
the delimiter are the written form of both lists in a row, and a transformer that stops at the first
element that stays leaves the written form of the list from there on.

* `encodeList_concat`, `exists_encodeList_front`: for every codec, the last element of a list is written
  to the buffer that the others are in, so of a list that can be written every front can be;
* `Codec.Appending.encodeList_eq`: a written list is the written forms of its elements, joined;
* `Codec.Appending.encodeList_cons_eq_ok_iff`, `encodeList_append`: written lists taken apart and put
  together;
* `Codec.Appending.encodeList_isOk_iff`: a list can be written if each of its elements can;
* `Codec.ReadsBack`: one element read back in front of anything;
* `Codec.ReadsInList`: one element read back where a list has it, by the codec and by the list
  format (`decodeNext_last`, `decodeNext_delimited`);
* `decodeList_encodeList_of_readsInList`, `Codec.Conforming.decodeList_encodeList`: a list read
  back;
* `transformFrom_end`, `transformFrom_dropped`, `transformFrom_kept`, `transformFrom_stopped`: a
  transformer one element at a time;
* `Codec.Conforming.transformList_encodeList_of_stop`: a list without its elements before the first
  one that stays.
-/

/-! ### Evaluating a function along a list -/

/-- A list comes through if its first element does, and the others do. -/
theorem mapM_cons_eq_ok_iff {ε α β : Type} {f : α → Except ε β} {x : α} {xs : List α}
    {ys : List β} :
    (x :: xs).mapM f = .ok ys
      ↔ ∃ y ys', f x = .ok y ∧ xs.mapM f = .ok ys' ∧ ys = y :: ys' := by
  rw [List.mapM_cons]
  cases hx : f x with
  | error e => simp [bind, Except.bind]
  | ok y =>
    cases hxs : xs.mapM f with
    | error e => simp [bind, Except.bind]
    | ok ys' => simp [bind, Except.bind, pure, Except.pure, eq_comm]

/-- As many come out as went in. -/
theorem length_of_mapM_eq_ok {ε α β : Type} {f : α → Except ε β} {xs : List α} {ys : List β}
    (h : xs.mapM f = .ok ys) : ys.length = xs.length := by
  induction xs generalizing ys with
  | nil =>
    obtain rfl : [] = ys := Except.ok.inj h
    rfl
  | cons x xs ih =>
    obtain ⟨y, ys', _, hxs, rfl⟩ := mapM_cons_eq_ok_iff.1 h
    simp [ih hxs]

theorem ne_nil_of_mapM_eq_ok {ε α β : Type} {f : α → Except ε β} {xs : List α} {ys : List β}
    (h : xs.mapM f = .ok ys) (hxs : xs ≠ []) : ys ≠ [] := by
  rintro rfl
  exact hxs (List.length_eq_zero_iff.1 (length_of_mapM_eq_ok h).symm)

/-- All come through if each one does. -/
theorem mapM_isOk_iff {ε α β : Type} {f : α → Except ε β} {xs : List α} :
    (∃ ys, xs.mapM f = .ok ys) ↔ ∀ x ∈ xs, ∃ y, f x = .ok y := by
  induction xs with
  | nil => simp [pure, Except.pure]
  | cons x xs ih =>
    rw [List.forall_mem_cons, ← ih]
    constructor
    · rintro ⟨ys, h⟩
      obtain ⟨y, ys', hx, hxs, _⟩ := mapM_cons_eq_ok_iff.1 h
      exact ⟨⟨y, hx⟩, ys', hxs⟩
    · rintro ⟨⟨y, hx⟩, ys, hxs⟩
      exact ⟨y :: ys, mapM_cons_eq_ok_iff.2 ⟨y, ys, hx, hxs, rfl⟩⟩

/-- Every result is that of an element. -/
theorem exists_of_mem_mapM_eq_ok {ε α β : Type} {f : α → Except ε β} {xs : List α} {ys : List β}
    (h : xs.mapM f = .ok ys) {y : β} (hy : y ∈ ys) : ∃ x ∈ xs, f x = .ok y := by
  induction xs generalizing ys with
  | nil =>
    obtain rfl : [] = ys := Except.ok.inj h
    exact (List.not_mem_nil hy).elim
  | cons x xs ih =>
    obtain ⟨y', ys', hx, hxs, rfl⟩ := mapM_cons_eq_ok_iff.1 h
    rcases List.mem_cons.1 hy with rfl | hy
    · exact ⟨x, List.mem_cons_self, hx⟩
    · obtain ⟨x', hx', hf⟩ := ih hxs hy
      exact ⟨x', List.mem_cons_of_mem x hx', hf⟩

/-- Every element has a result. -/
theorem exists_mem_of_mapM_eq_ok {ε α β : Type} {f : α → Except ε β} {xs : List α} {ys : List β}
    (h : xs.mapM f = .ok ys) {x : α} (hx : x ∈ xs) : ∃ y ∈ ys, f x = .ok y := by
  induction xs generalizing ys with
  | nil => exact (List.not_mem_nil hx).elim
  | cons x' xs ih =>
    obtain ⟨y, ys', hy, hxs, rfl⟩ := mapM_cons_eq_ok_iff.1 h
    rcases List.mem_cons.1 hx with rfl | hx
    · exact ⟨y, List.mem_cons_self, hy⟩
    · obtain ⟨y', hy', hf⟩ := ih hxs hx
      exact ⟨y', List.mem_cons_of_mem y hy', hf⟩

/-- A failure is that of an element. -/
theorem exists_of_mapM_eq_error {ε α β : Type} {f : α → Except ε β} {xs : List α} {e : ε}
    (h : xs.mapM f = .error e) : ∃ x ∈ xs, f x = .error e := by
  induction xs with
  | nil => cases h
  | cons x xs ih =>
    rw [List.mapM_cons] at h
    -- the first failure ends it
    cases hx : f x with
    | error e' =>
      rw [hx] at h
      obtain rfl : e' = e := Except.error.inj h
      exact ⟨x, List.mem_cons_self, hx⟩
    | ok y =>
      cases hxs : xs.mapM f with
      | error e' =>
        rw [hx, hxs] at h
        obtain rfl : e' = e := Except.error.inj h
        obtain ⟨x', hx', hf⟩ := ih hxs
        exact ⟨x', List.mem_cons_of_mem x hx', hf⟩
      | ok ys =>
        rw [hx, hxs] at h
        cases h

/-- Two lists that come through come through together. -/
theorem mapM_append_eq_ok {ε α β : Type} {f : α → Except ε β} {xs xs' : List α} {ys ys' : List β}
    (h : xs.mapM f = .ok ys) (h' : xs'.mapM f = .ok ys') :
    (xs ++ xs').mapM f = .ok (ys ++ ys') := by
  rw [List.mapM_append, h, h']
  rfl

variable {α : Type} {codec : Codec α}

/-! ### Written lists -/

/-- Whether an element can be written. -/
def Codec.Writes (codec : Codec α) (x : α) : Prop := ∃ bs, codec.encode x = .ok bs

@[simp] theorem encodeList_nil : encodeList codec [] = .ok [] := rfl

/-- A list of one element is written as the element. -/
theorem encodeList_singleton (x : α) : encodeList codec [x] = codec.encode x := by
  rw [encodeList]
  cases codec.encode x <;> rfl

/-- Elements are written one behind the other. -/
theorem putDelimited_append (xs ys : List α) (out : Bytes) :
    putDelimited codec (xs ++ ys) out
      = (putDelimited codec xs out).bind (putDelimited codec ys) := by
  induction xs generalizing out with
  | nil => rfl
  | cons x xs ih =>
    rw [List.cons_append, putDelimited, putDelimited]
    cases codec.put x (out ++ [delimiter]) with
    | error e => rfl
    | ok out => exact ih out

/-- The last element is written behind the others, if there are any behind a delimiter. -/
theorem encodeList_concat (xs : List α) (y : α) :
    encodeList codec (xs ++ [y])
      = (encodeList codec xs).bind fun written =>
          codec.put y (if xs = [] then written else written ++ [delimiter]) := by
  cases xs with
  | nil => exact encodeList_singleton y
  | cons x xs =>
    simp only [if_neg (List.cons_ne_nil x xs)]
    rw [List.cons_append, encodeList, encodeList]
    cases codec.encode x with
    | error e => rfl
    | ok a =>
      refine (putDelimited_append xs [y] a).trans ?_
      congr
      funext out
      rw [putDelimited]
      cases codec.put y (out ++ [delimiter]) <;> rfl

/-- Of a list that is written, so is every front. -/
theorem exists_encodeList_front {xs ys : List α} {bs : Bytes}
    (h : encodeList codec (xs ++ ys) = .ok bs) : ∃ front, encodeList codec xs = .ok front := by
  cases xs with
  | nil => exact ⟨[], rfl⟩
  | cons x xs =>
    rw [List.cons_append, encodeList] at h
    obtain ⟨a, ha, h⟩ := bind_eq_ok h
    rw [putDelimited_append] at h
    obtain ⟨front, hfront, -⟩ := bind_eq_ok h
    exact ⟨front, by rw [encodeList, ha]; exact hfront⟩

namespace Codec.Appending

variable (hc : codec.Appending)
include hc

/-- Elements behind a buffer are their written forms, each behind a delimiter. -/
theorem putDelimited_eq (xs : List α) (out : Bytes) :
    putDelimited codec xs out
      = (xs.mapM codec.encode).map fun pieces => out ++ pieces.flatMap (delimiter :: ·) := by
  induction xs generalizing out with
  | nil => exact congrArg Except.ok (List.append_nil out).symm
  | cons x xs ih =>
    rw [putDelimited, hc, List.mapM_cons]
    cases codec.encode x with
    | error e => rfl
    | ok a =>
      show putDelimited codec xs (out ++ [delimiter] ++ a) = _
      rw [ih]
      cases xs.mapM codec.encode with
      | error e => rfl
      | ok pieces =>
        refine congrArg Except.ok ?_
        show out ++ [delimiter] ++ a ++ pieces.flatMap (delimiter :: ·) = _
        rw [List.append_assoc, List.append_assoc]
        rfl

/-- An element that cannot be written behind others cannot be written. -/
theorem encode_of_concat {xs : List α} {y : α} {bs : Bytes} (hxs : encodeList codec xs = .ok bs)
    {e : StateError} (h : encodeList codec (xs ++ [y]) = .error e) : codec.encode y = .error e := by
  rw [encodeList_concat, hxs] at h
  have hput : codec.put y (if xs = [] then bs else bs ++ [delimiter]) = .error e := h
  rw [hc] at hput
  cases hencode : codec.encode y with
  | error e' =>
    rw [hencode] at hput
    exact hput
  | ok a =>
    rw [hencode] at hput
    cases hput

/-- A written list is the written forms of its elements, with the delimiter between them. -/
theorem encodeList_eq (xs : List α) :
    encodeList codec xs = (xs.mapM codec.encode).map (Bytes.joinWith delimiter) := by
  cases xs with
  | nil => rfl
  | cons x xs =>
    rw [encodeList, List.mapM_cons]
    cases codec.encode x with
    | error e => rfl
    | ok a =>
      show putDelimited codec xs a = _
      rw [hc.putDelimited_eq]
      cases xs.mapM codec.encode with
      | error e => rfl
      | ok pieces => exact congrArg Except.ok (Bytes.joinWith_eq_flatMap delimiter a pieces).symm

/-- A written list is its elements, each one written, with delimiters between them. -/
theorem encodeList_eq_ok_iff {xs : List α} {bs : Bytes} :
    encodeList codec xs = .ok bs
      ↔ ∃ pieces, xs.mapM codec.encode = .ok pieces ∧ bs = Bytes.joinWith delimiter pieces := by
  rw [hc.encodeList_eq]
  cases xs.mapM codec.encode with
  | error e => simp [Except.map]
  | ok pieces => simp [Except.map, eq_comm]

/-- The written form of a longer list: an element, the delimiter, the others. -/
theorem encodeList_cons_eq_ok_iff {x : α} {xs : List α} (hxs : xs ≠ []) {bs : Bytes} :
    encodeList codec (x :: xs) = .ok bs
      ↔ ∃ a b, codec.encode x = .ok a ∧ encodeList codec xs = .ok b ∧ bs = a ++ delimiter :: b := by
  rw [hc.encodeList_eq_ok_iff]
  constructor
  · rintro ⟨pieces, hpieces, rfl⟩
    obtain ⟨a, rest, hx, hrest, rfl⟩ := mapM_cons_eq_ok_iff.1 hpieces
    exact ⟨a, _, hx, hc.encodeList_eq_ok_iff.2 ⟨rest, hrest, rfl⟩,
      Bytes.joinWith_cons _ _ (ne_nil_of_mapM_eq_ok hrest hxs)⟩
  · rintro ⟨a, b, hx, hb, rfl⟩
    obtain ⟨rest, hrest, rfl⟩ := hc.encodeList_eq_ok_iff.1 hb
    exact ⟨a :: rest, mapM_cons_eq_ok_iff.2 ⟨a, rest, hx, hrest, rfl⟩,
      (Bytes.joinWith_cons _ _ (ne_nil_of_mapM_eq_ok hrest hxs)).symm⟩

/-- Two written lists with the delimiter between them are the written form of both in a row. -/
theorem encodeList_append {xs ys : List α} {a b : Bytes} (hxs : xs ≠ []) (hys : ys ≠ [])
    (ha : encodeList codec xs = .ok a) (hb : encodeList codec ys = .ok b) :
    encodeList codec (xs ++ ys) = .ok (a ++ delimiter :: b) := by
  obtain ⟨ps, hps, rfl⟩ := hc.encodeList_eq_ok_iff.1 ha
  obtain ⟨qs, hqs, rfl⟩ := hc.encodeList_eq_ok_iff.1 hb
  exact hc.encodeList_eq_ok_iff.2 ⟨ps ++ qs, mapM_append_eq_ok hps hqs,
    (Bytes.joinWith_append _ (ne_nil_of_mapM_eq_ok hps hxs) (ne_nil_of_mapM_eq_ok hqs hys)).symm⟩

/-- A list can be written if and only if each of its elements can. -/
theorem encodeList_isOk_iff {xs : List α} :
    (∃ bs, encodeList codec xs = .ok bs) ↔ ∀ x ∈ xs, codec.Writes x := by
  unfold Codec.Writes
  rw [← mapM_isOk_iff]
  constructor
  · rintro ⟨bs, h⟩
    obtain ⟨ps, hps, _⟩ := hc.encodeList_eq_ok_iff.1 h
    exact ⟨ps, hps⟩
  · rintro ⟨ps, hps⟩
    exact ⟨_, hc.encodeList_eq_ok_iff.2 ⟨ps, hps, rfl⟩⟩

end Codec.Appending

/-! ### Reading from the cursor on -/

theorem Cursor.isEmpty_iff {c : Cursor} : c.isEmpty = true ↔ c.rest = [] := by
  rw [Cursor.isEmpty, beq_iff_eq, ← Cursor.length_rest, List.length_eq_zero_iff]

/-- A cursor that moves behind bytes that are there is at another position. -/
theorem Cursor.position_skip_ne {c : Cursor} {n : Nat} (hpos : 0 < n) (hn : n ≤ c.remaining) :
    (c.skip n).position ≠ c.position := by
  have hlength := c.position_add_remaining
  simp only [Cursor.skip]
  omega

/-- At the end of input there is no element. -/
theorem decodeNext_end {c : Cursor} (h : c.rest = []) : decodeNext codec c = .ok none := by
  rw [decodeNext, if_pos (Cursor.isEmpty_iff.2 h)]

/-- The list ends there. -/
theorem decodeFrom_end {c : Cursor} (h : c.rest = []) : codec.decodeFrom c = some (.ok []) := by
  rw [Codec.decodeFrom, decodeNext_end h]

/-- An element is in front of what is read behind it. -/
theorem decodeFrom_next {c c' : Cursor} {x : α} (h : decodeNext codec c = .ok (some (x, c'))) :
    codec.decodeFrom c = (codec.decodeFrom c').map (Except.map (x :: ·)) := by
  rw [Codec.decodeFrom, h]
  cases hrest : codec.decodeFrom c' <;> simp [hrest]

/-- An element that cannot be read ends the reading with its error. -/
theorem decodeFrom_of_next_error {c : Cursor} {e : StateError}
    (h : decodeNext codec c = .error e) : codec.decodeFrom c = some (.error e) := by
  rw [Codec.decodeFrom, h]

/-- A list that is read to its end is what a stored value holds. -/
theorem decodeList_eq {bs : Bytes} {r : Except StateError (List α)}
    (h : codec.decodeFrom (Cursor.ofBytes bs) = some r) : decodeList codec (some bs) = r :=
  Option.await_eq h

section Transformer

variable {t : ElementTransformer α} {c c' : Cursor}

/-- At the end of input the survivors are written. -/
theorem transformFrom_end (h : c.rest = []) (kept : List α) :
    codec.transformFrom t c kept
      = some (if kept.isEmpty then .ok none else (encodeList codec kept.reverse).map some) := by
  rw [Codec.transformFrom, decodeNext_end h]
  cases kept <;> rfl

/-- An element that cannot be read ends the transformation with its error. -/
theorem transformFrom_of_next_error {e : StateError} (h : decodeNext codec c = .error e)
    (kept : List α) : codec.transformFrom t c kept = some (.error e) := by
  rw [Codec.transformFrom, h]

/-- An element that the transformer drops leaves the survivors as they are. -/
theorem transformFrom_dropped {x : α} (h : decodeNext codec c = .ok (some (x, c')))
    (ht : t.apply x = none) (kept : List α) :
    codec.transformFrom t c kept = codec.transformFrom t c' kept := by
  rw [Codec.transformFrom, h]
  simp only [ht]

/-- An element that stays is one more survivor, if all are transformed. -/
theorem transformFrom_kept {x y : α} (h : decodeNext codec c = .ok (some (x, c')))
    (ht : t.apply x = some y) (hall : t.strategy = .transformAll) (kept : List α) :
    codec.transformFrom t c kept = codec.transformFrom t c' (y :: kept) := by
  rw [Codec.transformFrom, h]
  simp only [ht, hall]

/-- At an element that stays the transformer may stop, and the bytes from where the element began are
the result. -/
theorem transformFrom_stopped {x y : α} (h : decodeNext codec c = .ok (some (x, c')))
    (ht : t.apply x = some y) (hstop : t.strategy = .stopOnFirstIncluded) (kept : List α) :
    codec.transformFrom t c kept = some (.ok (some (c'.buffer.drop c.position))) := by
  rw [Codec.transformFrom, h]
  simp only [ht, hstop]

end Transformer

/-! ### One element -/

/-- The codec reads `bs`, which is not empty, in front of anything as the element `x`, and moves
exactly behind it. -/
def Codec.ReadsBack (codec : Codec α) (x : α) (bs : Bytes) : Prop :=
  bs ≠ [] ∧ ∀ (c : Cursor) (tail : Bytes), c.rest = bs ++ tail →
    codec.decode c = .ok (x, c.skip bs.length)

/-- What stands behind an element of a list: nothing, or a delimiter and anything. -/
def EndsElement (tail : Bytes) : Prop := tail = [] ∨ ∃ rest, tail = delimiter :: rest

/-- The codec reads `bs`, which is not empty, as the element `x` where a list has it, and moves
exactly behind it. -/
def Codec.ReadsInList (codec : Codec α) (x : α) (bs : Bytes) : Prop :=
  bs ≠ [] ∧ ∀ (c : Cursor) (tail : Bytes), EndsElement tail → c.rest = bs ++ tail →
    codec.decode c = .ok (x, c.skip bs.length)

/-- What reads back in front of anything does so in front of a delimiter. -/
theorem Codec.ReadsBack.inList {x : α} {a : Bytes} (hx : codec.ReadsBack x a) :
    codec.ReadsInList x a := ⟨hx.1, fun c tail _ => hx.2 c tail⟩

namespace Codec.ReadsInList

variable {x : α} {a : Bytes} (hx : codec.ReadsInList x a)
include hx

/-- The last element of a list is read to the end of input. -/
theorem decodeNext_last {c : Cursor} (hrest : c.rest = a) :
    ∃ c', decodeNext codec c = .ok (some (x, c')) ∧ c'.buffer = c.buffer ∧ c'.rest = [] := by
  obtain ⟨hne, hdecode⟩ := hx
  have hread := hdecode c [] (.inl rfl) (by simpa using hrest)
  have hafter : (c.skip a.length).rest = [] := by simp [hrest]
  refine ⟨c.skip a.length, ?_, rfl, hafter⟩
  have hempty : ¬ c.isEmpty = true := by simpa [Cursor.isEmpty_iff, hrest] using hne
  -- an element of no bytes would be reported as a decoder that does not advance
  have hleft : a.length ≤ c.remaining := Nat.le_of_eq (by rw [← hrest, Cursor.length_rest])
  have hmoved : (c.skip a.length).position ≠ c.position :=
    Cursor.position_skip_ne (List.length_pos_iff.2 hne) hleft
  rw [decodeNext, if_neg hempty, hread]
  simp only [if_neg hmoved, hafter]

/-- An element in front of a delimiter is read with the delimiter. -/
theorem decodeNext_delimited {b : Bytes} {c : Cursor} (hrest : c.rest = a ++ delimiter :: b) :
    ∃ c', decodeNext codec c = .ok (some (x, c')) ∧ c'.buffer = c.buffer ∧ c'.rest = b := by
  obtain ⟨hne, hdecode⟩ := hx
  have hread := hdecode c (delimiter :: b) (.inr ⟨b, rfl⟩) hrest
  have hafter : (c.skip a.length).rest = delimiter :: b := by simp [hrest]
  refine ⟨(c.skip a.length).skip 1, ?_, rfl, by simp [hafter]⟩
  have hempty : ¬ c.isEmpty = true := by simp [Cursor.isEmpty_iff, hrest]
  have hleft : a.length ≤ c.remaining := by
    rw [← Cursor.length_rest, hrest, List.length_append]
    exact Nat.le_add_right ..
  have hmoved : (c.skip a.length).position ≠ c.position :=
    Cursor.position_skip_ne (List.length_pos_iff.2 hne) hleft
  rw [decodeNext, if_neg hempty, hread]
  simp only [if_neg hmoved, hafter, if_true]

end Codec.ReadsInList

section WrittenLists

variable (hc : codec.Appending)
include hc

/-- Of a written list the first element is read, if the codec reads it back, and what follows is
the rest of the list, written. -/
theorem decodeNext_encodeList_of_readsInList {x : α} {xs : List α} {bs : Bytes}
    (hx : ∀ a, codec.encode x = .ok a → codec.ReadsInList x a)
    (h : encodeList codec (x :: xs) = .ok bs) {c : Cursor} (hrest : c.rest = bs) :
    ∃ c', decodeNext codec c = .ok (some (x, c')) ∧ c'.buffer = c.buffer ∧
      encodeList codec xs = .ok c'.rest := by
  by_cases hxs : xs = []
  · subst hxs
    rw [encodeList_singleton] at h
    obtain ⟨c', hnext, hbuffer, hend⟩ := (hx bs h).decodeNext_last hrest
    exact ⟨c', hnext, hbuffer, by rw [hend, encodeList_nil]⟩
  · obtain ⟨a, b, ha, hb, rfl⟩ := (hc.encodeList_cons_eq_ok_iff hxs).1 h
    obtain ⟨c', hnext, hbuffer, hafter⟩ := (hx a ha).decodeNext_delimited hrest
    exact ⟨c', hnext, hbuffer, by rw [hafter, hb]⟩

/-- A written list is read back, if the codec reads each of its elements back. -/
theorem decodeFrom_encodeList_of_readsInList {xs : List α} {bs : Bytes}
    (hxs : ∀ x ∈ xs, ∀ a, codec.encode x = .ok a → codec.ReadsInList x a)
    (h : encodeList codec xs = .ok bs) {c : Cursor} (hrest : c.rest = bs) :
    codec.decodeFrom c = some (.ok xs) := by
  induction xs generalizing bs c with
  | nil =>
    obtain rfl : [] = bs := Except.ok.inj h
    exact decodeFrom_end hrest
  | cons x xs ih =>
    obtain ⟨hx, hxs⟩ := List.forall_mem_cons.1 hxs
    obtain ⟨c', hnext, -, hrestList⟩ := decodeNext_encodeList_of_readsInList hc hx h hrest
    rw [decodeFrom_next hnext, ih hxs hrestList rfl]
    rfl

/-- A list of elements that are written and read back where a list has them is written and read
back. -/
theorem decodeList_encodeList_of_readsInList {xs : List α}
    (h : ∀ x ∈ xs, ∃ bs, codec.encode x = .ok bs ∧ codec.ReadsInList x bs) :
    ∃ bs, encodeList codec xs = .ok bs ∧ decodeList codec (some bs) = .ok xs := by
  obtain ⟨bs, hbs⟩ := hc.encodeList_isOk_iff.2 fun x hx =>
    (h x hx).imp fun _ hwritten => hwritten.1
  refine ⟨bs, hbs, decodeList_eq ?_⟩
  refine decodeFrom_encodeList_of_readsInList hc (fun x hx a ha => ?_) hbs rfl
  obtain ⟨a', hencode, hread⟩ := h x hx
  obtain rfl := Except.ok.inj (hencode.symm.trans ha)
  exact hread

end WrittenLists

namespace Codec.Conforming

variable (hc : codec.Conforming)
include hc

/-- What a conforming codec writes reads back. -/
theorem readsBack {x : α} {a : Bytes} (hx : codec.encode x = .ok a) : codec.ReadsBack x a :=
  hc.reads_back x a hx

/-- Of a written list the first element is read, and what follows is the rest of the list,
written. -/
theorem decodeNext_encodeList {x : α} {xs : List α} {bs : Bytes}
    (h : encodeList codec (x :: xs) = .ok bs) {c : Cursor} (hrest : c.rest = bs) :
    ∃ c', decodeNext codec c = .ok (some (x, c')) ∧ c'.buffer = c.buffer ∧
      encodeList codec xs = .ok c'.rest :=
  decodeNext_encodeList_of_readsInList hc.appending (fun _ ha => (hc.readsBack ha).inList) h hrest

/-! ### Whole lists -/

/-- Only the list without elements is written as no bytes. -/
theorem encodeList_ne_nil {xs : List α} {bs : Bytes} (hxs : xs ≠ [])
    (h : encodeList codec xs = .ok bs) : bs ≠ [] := by
  cases xs with
  | nil => exact absurd rfl hxs
  | cons x xs =>
    by_cases hnil : xs = []
    · subst hnil
      rw [encodeList_singleton] at h
      exact (hc.readsBack h).1
    · obtain ⟨a, b, _, _, rfl⟩ := (hc.appending.encodeList_cons_eq_ok_iff hnil).1 h
      simp

/-- A written list is read back. -/
theorem decodeFrom_encodeList {xs : List α} {bs : Bytes} (h : encodeList codec xs = .ok bs)
    {c : Cursor} (hrest : c.rest = bs) : codec.decodeFrom c = some (.ok xs) :=
  decodeFrom_encodeList_of_readsInList hc.appending (fun _ _ _ ha => (hc.readsBack ha).inList) h
    hrest

/-- A written list is read back from a stored value. -/
theorem decodeList_encodeList {xs : List α} {bs : Bytes} (h : encodeList codec xs = .ok bs) :
    decodeList codec (some bs) = .ok xs :=
  decodeList_eq (hc.decodeFrom_encodeList h rfl)

/-- Where the transformer stops at the first element that stays, only the elements before it go. -/
theorem transformFrom_encodeList_of_stop {t : ElementTransformer α}
    (hstop : t.strategy = .stopOnFirstIncluded) {xs : List α} {bs : Bytes}
    (h : encodeList codec xs = .ok bs) {c : Cursor} (hrest : c.rest = bs) :
    codec.transformFrom t c []
      = some (if xs.dropWhile (fun x => (t.apply x).isNone) = [] then .ok none
        else (encodeList codec (xs.dropWhile fun x => (t.apply x).isNone)).map some) := by
  induction xs generalizing bs c with
  | nil =>
    obtain rfl : [] = bs := Except.ok.inj h
    rw [transformFrom_end hrest]
    rfl
  | cons x xs ih =>
    obtain ⟨c', hnext, hbuffer, hxs⟩ := hc.decodeNext_encodeList h hrest
    cases ht : t.apply x with
    | none =>
      rw [transformFrom_dropped hnext ht, ih hxs rfl, List.dropWhile_cons_of_pos (by simp [ht])]
    | some y =>
      -- the bytes are left as they are, and they are the list from this element on
      have hbytes : c'.buffer.drop c.position = bs := by rw [hbuffer, ← hrest, Cursor.rest]
      rw [transformFrom_stopped hnext ht hstop, List.dropWhile_cons_of_neg (by simp [ht]),
        if_neg (List.cons_ne_nil x xs), hbytes, h]
      rfl

/-- A stored list without its elements before the first one that stays. -/
theorem transformList_encodeList_of_stop {t : ElementTransformer α}
    (hstop : t.strategy = .stopOnFirstIncluded) {xs : List α} {bs : Bytes}
    (h : encodeList codec xs = .ok bs) :
    transformList codec t (some bs)
      = if xs.dropWhile (fun x => (t.apply x).isNone) = [] then .ok none
        else (encodeList codec (xs.dropWhile fun x => (t.apply x).isNone)).map some :=
  Option.await_eq (hc.transformFrom_encodeList_of_stop hstop h rfl)

end Codec.Conforming

end AppendLists
