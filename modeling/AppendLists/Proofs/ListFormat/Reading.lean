import AppendLists.Proofs.Codec.Forward
import AppendLists.Proofs.ListFormat.RoundTrip

namespace AppendLists

/-!
# Elements read in turn

Whatever the codec and whatever the bytes, reading goes from one element to the next until the input
ends or a step fails. A codec that goes back in the input may be read with for ever; one that does not
is left with fewer bytes after every step. What becomes of a list that is decoded, filtered or migrated
is told by how far reading gets.

* `decodeNext_eq_none`, `decodeNext_eq_some_iff`: what a step comes to;
* `Codec.Reads`: the elements read between two cursors;
* `Codec.Reads.decodeFrom_eq`: reading on behind them;
* `Codec.Ends`: reading comes to an end, after some elements (`Codec.Ends.exists_reads`);
* `decodeFrom_eq_none_iff`: there are no elements to speak of if it does not;
* `Codec.rereading`, `Codec.not_ends_rereading`: a codec that goes back, with which reading does not end;
* `Codec.Forward.ends`: codecs that do not go back;
* `decodeFrom_eq_ok_iff`: the lists that are decoded.
-/

variable {α : Type} {codec : Codec α}

/-! ### One step -/

/-- Nothing is left where reading stops. -/
theorem decodeNext_eq_none {c : Cursor} (h : decodeNext codec c = .ok none) : c.rest = [] := by
  unfold decodeNext at h
  split at h
  · case isTrue hempty => exact Cursor.isEmpty_iff.1 hempty
  · split at h
    · cases h
    · split at h
      · cases h
      · split at h
        · cases h
        · split at h <;> cases h

/-- All that a step that reads an element does: the codec decodes it and moves, and then the input
ends or the delimiter is passed over. -/
theorem decodeNext_eq_some_iff {c c' : Cursor} {x : α} :
    decodeNext codec c = .ok (some (x, c')) ↔
      c.rest ≠ [] ∧ ∃ d, codec.decode c = .ok (x, d) ∧ d.position ≠ c.position ∧
        (d.rest = [] ∧ c' = d ∨ ∃ rest, d.rest = delimiter :: rest ∧ c' = d.skip 1) := by
  constructor
  · -- -- the branches of a step in its order, of which one is left at each split
    intro h
    unfold decodeNext at h
    split at h
    · cases h
    · case isFalse hempty =>
      refine ⟨fun hend => hempty (Cursor.isEmpty_iff.2 hend), ?_⟩
      split at h
      · cases h
      · case h_2 y d hdecode =>
        split at h
        · cases h
        · case isFalse hmoved =>
          split at h
          · case h_1 hend =>
            obtain ⟨rfl, rfl⟩ := Prod.mk.inj (Option.some.inj (Except.ok.inj h))
            exact ⟨d, hdecode, hmoved, .inl ⟨hend, rfl⟩⟩
          · case h_2 b rest hmore =>
            split at h
            · case isTrue hb =>
              obtain ⟨rfl, rfl⟩ := Prod.mk.inj (Option.some.inj (Except.ok.inj h))
              exact ⟨d, hdecode, hmoved, .inr ⟨rest, hb ▸ hmore, rfl⟩⟩
            · cases h
  · rintro ⟨hne, d, hdecode, hmoved, hbehind⟩
    have hempty : ¬ c.isEmpty = true := mt Cursor.isEmpty_iff.1 hne
    rw [decodeNext, if_neg hempty, hdecode]
    rcases hbehind with ⟨hend, rfl⟩ | ⟨rest, hmore, rfl⟩
    · simp only [if_neg hmoved, hend]
    · simp only [if_neg hmoved, hmore, if_true]

theorem rest_ne_nil_of_decodeNext {c c' : Cursor} {x : α}
    (h : decodeNext codec c = .ok (some (x, c'))) : c.rest ≠ [] := (decodeNext_eq_some_iff.1 h).1

/-! ### Several steps -/

/-- From the first cursor to the second, the elements are read one after the other. -/
inductive Codec.Reads (codec : Codec α) : Cursor → List α → Cursor → Prop where
  /-- Nothing is read yet. -/
  | here (c : Cursor) : Reads codec c [] c
  /-- One element, and then the others. -/
  | next {c c' d : Cursor} {x : α} {xs : List α} (hnext : decodeNext codec c = .ok (some (x, c')))
      (hrest : Reads codec c' xs d) : Reads codec c (x :: xs) d

/-- Elements are read in turn. -/
theorem Codec.Reads.trans {b c d : Cursor} {xs ys : List α} (h : codec.Reads b xs c)
    (h' : codec.Reads c ys d) : codec.Reads b (xs ++ ys) d := by
  induction h with
  | here c => exact h'
  | next hnext _ ih => exact .next hnext (ih h')

/-- The elements read so far stand in front of the others. -/
theorem Codec.Reads.decodeFrom_eq {c d : Cursor} {xs : List α} (h : codec.Reads c xs d) :
    codec.decodeFrom c = (codec.decodeFrom d).map (Except.map (xs ++ ·)) := by
  induction h with
  | here c => rcases codec.decodeFrom c with _ | _ | _ <;> rfl
  | @next c c' d x xs hnext _ ih =>
    rw [decodeFrom_next hnext, ih]
    rcases codec.decodeFrom d with _ | _ | _ <;> rfl

/-! ### The end of reading -/

/-- Reading comes to the end of input, or to a step that fails. -/
inductive Codec.Ends (codec : Codec α) : Cursor → Prop where
  /-- The step fails. -/
  | failed {c : Cursor} {e : StateError} (hnext : decodeNext codec c = .error e) : Ends codec c
  /-- The input ends. -/
  | ended {c : Cursor} (hnext : decodeNext codec c = .ok none) : Ends codec c
  /-- An element is read, and reading ends behind it. -/
  | next {c c' : Cursor} {x : α} (hnext : decodeNext codec c = .ok (some (x, c')))
      (hrest : Ends codec c') : Ends codec c

/-- Reading that ends has come past some elements. -/
theorem Codec.Ends.exists_reads {c : Cursor} (h : codec.Ends c) :
    ∃ xs d, codec.Reads c xs d ∧ (d.rest = [] ∨ ∃ e, decodeNext codec d = .error e) := by
  induction h with
  | @failed c e hnext => exact ⟨[], c, .here c, .inr ⟨e, hnext⟩⟩
  | @ended c hnext => exact ⟨[], c, .here c, .inl (decodeNext_eq_none hnext)⟩
  | @next c c' x hnext _ ih =>
    obtain ⟨xs, d, hreads, hstop⟩ := ih
    exact ⟨x :: xs, d, .next hnext hreads, hstop⟩

/-- What reading comes to, if it ends: the elements, or the error of the step that fails. -/
theorem Codec.Ends.exists_decodeFrom {c : Cursor} (h : codec.Ends c) :
    ∃ r, codec.decodeFrom c = some r := by
  induction h with
  | failed hnext => exact ⟨_, decodeFrom_of_next_error hnext⟩
  | ended hnext => exact ⟨_, decodeFrom_end (decodeNext_eq_none hnext)⟩
  | next hnext _ ih =>
    obtain ⟨r, hr⟩ := ih
    exact ⟨_, by rw [decodeFrom_next hnext, hr, Option.map_some]⟩

/-- Reading has ended if it has come to something. -/
theorem ends_of_decodeFrom {c : Cursor} {r : Except StateError (List α)}
    (h : codec.decodeFrom c = some r) : codec.Ends c := by
  -- what is proved of a run is what one turn makes of it, given it of the run behind that turn
  refine Codec.decodeFrom.partial_correctness codec (fun c _ => codec.Ends c) ?_ c r h
  intro rest hrest c r hrun
  rcases hnext : decodeNext codec c with e | _ | ⟨x, c'⟩
  · exact .failed hnext
  · exact .ended hnext
  · rw [hnext] at hrun
    obtain ⟨r', hr', -⟩ := Option.bind_eq_some_iff.1 hrun
    exact .next hnext (hrest c' r' hr')

/-- Reading that does not end comes to nothing, and no other does. -/
theorem decodeFrom_eq_none_iff {c : Cursor} : codec.decodeFrom c = none ↔ ¬ codec.Ends c := by
  constructor
  · intro hnone hends
    obtain ⟨r, hr⟩ := hends.exists_decodeFrom
    rw [hnone] at hr
    cases hr
  · intro hends
    cases hrun : codec.decodeFrom c with
    | none => rfl
    | some r => exact absurd (ends_of_decodeFrom hrun) hends

/-- What a stored value holds is what reading it comes to, if that ends. -/
theorem Codec.Ends.decodeList_eq_iff {bs : Bytes} (h : codec.Ends (Cursor.ofBytes bs))
    {r : Except StateError (List α)} :
    decodeList codec (some bs) = r ↔ codec.decodeFrom (Cursor.ofBytes bs) = some r := by
  constructor
  · rintro rfl
    obtain ⟨r, hr⟩ := h.exists_decodeFrom
    rw [decodeList_eq hr, hr]
  · exact decodeList_eq

/-- A list is decoded if its elements are read and nothing is left then. -/
theorem decodeFrom_eq_ok_iff {c : Cursor} {xs : List α} :
    codec.decodeFrom c = some (.ok xs) ↔ ∃ d, codec.Reads c xs d ∧ d.rest = [] := by
  constructor
  · intro h
    obtain ⟨ys, d, hreads, hend | ⟨e, hnext⟩⟩ := (ends_of_decodeFrom h).exists_reads
    · rw [hreads.decodeFrom_eq, decodeFrom_end hend] at h
      obtain rfl : ys ++ [] = xs := Except.ok.inj (Option.some.inj h)
      exact ⟨d, by rwa [List.append_nil], hend⟩
    · rw [hreads.decodeFrom_eq, decodeFrom_of_next_error hnext] at h
      cases Option.some.inj h
  · rintro ⟨d, hreads, hend⟩
    rw [hreads.decodeFrom_eq, decodeFrom_end hend]
    exact congrArg (some ∘ Except.ok) (List.append_nil xs)

/-- An element that is read stands in the list that is decoded. -/
theorem Codec.Reads.exists_behind {c d d' : Cursor} {xs ys : List α} {x : α}
    (h : codec.Reads c xs d) (hnext : decodeNext codec d = .ok (some (x, d')))
    (hys : codec.decodeFrom c = some (.ok ys)) : ∃ behind, ys = xs ++ x :: behind := by
  rw [h.decodeFrom_eq, decodeFrom_next hnext] at hys
  rcases hrest : codec.decodeFrom d' with _ | _ | behind <;> rw [hrest] at hys
  · cases hys
  · cases hys
  · exact ⟨behind, (Except.ok.inj (Option.some.inj hys)).symm⟩

/-! ### Codecs that go back -/

/-- A step that leads back to where it began is made again and again. -/
theorem not_ends_of_loop {c : Cursor} {x : α} (h : decodeNext codec c = .ok (some (x, c))) :
    ¬ codec.Ends c := by
  intro hends
  induction hends with
  | failed hnext => cases h.symm.trans hnext
  | ended hnext => cases h.symm.trans hnext
  | next hnext _ ih =>
    obtain ⟨-, rfl⟩ := Prod.mk.inj (Option.some.inj (Except.ok.inj (h.symm.trans hnext)))
    exact ih h

/-- Marks of one byte, read wherever the cursor stands as the first byte of the buffer. -/
def Codec.rereading : Codec Unit where
  name := "rereading"
  version := 1
  write _ := appendForm (.ok [0x61])
  decode c := .ok ((), (Cursor.ofBytes c.buffer).skip 1)

/-- Behind the first delimiter the first byte is read over and over again. -/
theorem Codec.not_ends_rereading :
    ¬ Codec.rereading.Ends (Cursor.ofBytes [0x61, delimiter, 0x62]) := by
  intro hends
  let behind := (Cursor.ofBytes [0x61, delimiter, 0x62]).skip 2
  have hfirst : decodeNext Codec.rereading (Cursor.ofBytes [0x61, delimiter, 0x62])
      = .ok (some ((), behind)) := rfl
  have hagain : decodeNext Codec.rereading behind = .ok (some ((), behind)) := rfl
  cases hends with
  | failed hnext => cases hfirst.symm.trans hnext
  | ended hnext => cases hfirst.symm.trans hnext
  | next hnext hrest =>
    obtain ⟨-, rfl⟩ := Prod.mk.inj (Option.some.inj (Except.ok.inj (hfirst.symm.trans hnext)))
    exact not_ends_of_loop hagain hrest

/-! ### Codecs that do not go back -/

namespace Codec.Forward

variable (hc : codec.Forward)
include hc

/-- The delimiter behind an element lies ahead too. -/
theorem ahead_of_decodeNext {c c' : Cursor} {x : α}
    (h : decodeNext codec c = .ok (some (x, c'))) : c.Ahead c' := by
  obtain ⟨-, d, hdecode, -, ⟨-, rfl⟩ | ⟨rest, -, rfl⟩⟩ := decodeNext_eq_some_iff.1 h
  · exact hc c x c' hdecode
  · exact (hc c x d hdecode).trans (.skip d 1)

/-- A step that reads an element leaves fewer bytes. -/
theorem remaining_decodeNext {c c' : Cursor} {x : α}
    (h : decodeNext codec c = .ok (some (x, c'))) : c'.remaining < c.remaining := by
  obtain ⟨-, d, hdecode, hmoved, hbehind⟩ := decodeNext_eq_some_iff.1 h
  have hless : d.remaining < c.remaining := (hc c x d hdecode).remaining_lt_iff.2 hmoved
  rcases hbehind with ⟨-, rfl⟩ | ⟨rest, -, rfl⟩
  · exact hless
  · rw [← Cursor.length_rest, Cursor.rest_skip, List.length_drop, Cursor.length_rest]
    omega

/-- Reading ends, since fewer bytes are left after every step. -/
theorem ends (c : Cursor) : codec.Ends c := by
  match hnext : decodeNext codec c with
  | .error e => exact .failed hnext
  | .ok none => exact .ended hnext
  | .ok (some (x, c')) =>
    have hless := hc.remaining_decodeNext hnext
    exact .next hnext (ends c')
termination_by c.remaining

/-- What a stored value holds is what reading it comes to. -/
theorem decodeList_eq_iff {bs : Bytes} {r : Except StateError (List α)} :
    decodeList codec (some bs) = r ↔ codec.decodeFrom (Cursor.ofBytes bs) = some r :=
  (hc.ends (Cursor.ofBytes bs)).decodeList_eq_iff

end Codec.Forward

end AppendLists
