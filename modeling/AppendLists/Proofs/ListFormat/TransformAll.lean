import AppendLists.Proofs.Codec.Fixed
import AppendLists.Proofs.ListFormat.Reading

namespace AppendLists

/-!
# Transforming every element

A transformer of every element reads a list to its end before it writes anything, so it comes out as
reading the list, transforming its elements and writing the survivors would in turn, and does not
return where reading does not. This holds whatever the codec does and whatever the bytes are; what a
codec has to be good for is only that the bytes it returns can be read again.

* `storedSurvivors`: what is stored of the elements that survive;
* `Codec.Ends.transformFrom_of_all`, `ends_of_transformFrom`, `transformFrom_of_all`: the three steps in
  one;
* `Codec.Conforming.transformList_encodeList`: a written list;
* `transformList_all_outcome`: when it succeeds, with which bytes, and otherwise which error it is;
* `transformList_all_not_for_all_codecs`: a codec for which it comes to nothing.
-/

variable {α : Type} {codec : Codec α} {t : ElementTransformer α}

/-- The survivors of a list, written; without survivors nothing is stored. -/
def storedSurvivors (codec : Codec α) (xs : List α) : Except StateError (Option Bytes) :=
  if xs = [] then .ok none else (encodeList codec xs).map some

/-- Nothing is stored if there are no survivors. -/
theorem storedSurvivors_eq_none_iff {xs : List α} :
    storedSurvivors codec xs = .ok none ↔ xs = [] := by
  unfold storedSurvivors
  by_cases hxs : xs = []
  · simp [hxs]
  · rw [if_neg hxs]
    cases encodeList codec xs <;> simp [Except.map, hxs]

/-- What is stored is the written form of the survivors. -/
theorem storedSurvivors_eq_some_iff {xs : List α} {v : Bytes} :
    storedSurvivors codec xs = .ok (some v) ↔ xs ≠ [] ∧ encodeList codec xs = .ok v := by
  unfold storedSurvivors
  by_cases hxs : xs = []
  · simp [hxs]
  · rw [if_neg hxs]
    cases encodeList codec xs <;> simp [Except.map, hxs]

/-- It fails if the survivors cannot be written. -/
theorem storedSurvivors_eq_error_iff {xs : List α} {e : StateError} :
    storedSurvivors codec xs = .error e ↔ xs ≠ [] ∧ encodeList codec xs = .error e := by
  unfold storedSurvivors
  by_cases hxs : xs = []
  · simp [hxs]
  · rw [if_neg hxs]
    cases encodeList codec xs <;> simp [Except.map, hxs]

/-- Where reading ends, what is left is read, and the survivors of it are written behind those so
far. -/
theorem Codec.Ends.transformFrom_of_all {c : Cursor} (h : codec.Ends c)
    (hall : t.strategy = .transformAll) (kept : List α) :
    codec.transformFrom t c kept
      = (codec.decodeFrom c).map fun reading =>
          reading.bind fun xs => storedSurvivors codec (kept.reverse ++ xs.filterMap t.apply) := by
  -- the survivors so far grow with every element that stays, so they are general
  induction h generalizing kept with
  | failed hnext =>
    rw [transformFrom_of_next_error hnext, decodeFrom_of_next_error hnext]
    rfl
  | ended hnext =>
    have hend := decodeNext_eq_none hnext
    rw [transformFrom_end hend, decodeFrom_end hend]
    simp [Except.bind, storedSurvivors]
  | @next c c' x hnext _ ih =>
    rw [decodeFrom_next hnext, Option.map_map]
    cases ht : t.apply x with
    | none =>
      rw [transformFrom_dropped hnext ht, ih]
      congr
      funext reading
      cases reading with
      | error e => rfl
      | ok xs => simp only [Function.comp, Except.bind, Except.map, List.filterMap_cons_none ht]
    | some y =>
      rw [transformFrom_kept hnext ht hall, ih]
      congr
      funext reading
      cases reading with
      | error e => rfl
      | ok xs => simp [Except.bind, Except.map, List.filterMap_cons_some ht]

/-- Every element is transformed only if reading ends. -/
theorem ends_of_transformFrom (hall : t.strategy = .transformAll) {c : Cursor} {kept : List α}
    {r : Except StateError (Option Bytes)} (h : codec.transformFrom t c kept = some r) :
    codec.Ends c := by
  -- what is proved of a run is what one turn makes of it, given it of the run behind that turn
  refine Codec.transformFrom.partial_correctness codec t (fun c _ _ => codec.Ends c) ?_ c kept r h
  intro rest hrest c kept r hrun
  rcases hnext : decodeNext codec c with e | _ | ⟨x, c'⟩
  · exact .failed hnext
  · exact .ended hnext
  · cases ht : t.apply x with
    | none =>
      simp only [hnext, ht] at hrun
      exact .next hnext (hrest c' kept r hrun)
    | some y =>
      simp only [hnext, ht, hall] at hrun
      exact .next hnext (hrest c' (y :: kept) r hrun)

/-- What is left is read, and the survivors of it are written behind those so far. -/
theorem transformFrom_of_all (hall : t.strategy = .transformAll) (c : Cursor) (kept : List α) :
    codec.transformFrom t c kept
      = (codec.decodeFrom c).map fun reading =>
          reading.bind fun xs => storedSurvivors codec (kept.reverse ++ xs.filterMap t.apply) := by
  by_cases hends : codec.Ends c
  · exact hends.transformFrom_of_all hall kept
  · -- neither comes to anything
    rw [decodeFrom_eq_none_iff.2 hends]
    cases hrun : codec.transformFrom t c kept with
    | none => rfl
    | some r => exact absurd (ends_of_transformFrom hall hrun) hends

section StoredValue

variable (hall : t.strategy = .transformAll) {bs : Bytes}
include hall

/-- A stored value is transformed by reading it and writing its survivors. -/
theorem transformFrom_ofBytes :
    codec.transformFrom t (Cursor.ofBytes bs) []
      = (codec.decodeFrom (Cursor.ofBytes bs)).map fun reading =>
          reading.bind fun xs => storedSurvivors codec (xs.filterMap t.apply) :=
  transformFrom_of_all hall (Cursor.ofBytes bs) []

/-- A transformation does not return where reading does not, and nowhere else. -/
theorem transformFrom_eq_none_iff :
    codec.transformFrom t (Cursor.ofBytes bs) [] = none
      ↔ codec.decodeFrom (Cursor.ofBytes bs) = none := by
  rw [transformFrom_ofBytes hall, Option.map_eq_none_iff]

/-- It succeeds if the list is read and the survivors can be stored. -/
theorem transformFrom_eq_ok_iff {v : Option Bytes} :
    codec.transformFrom t (Cursor.ofBytes bs) [] = some (.ok v)
      ↔ ∃ xs, codec.decodeFrom (Cursor.ofBytes bs) = some (.ok xs) ∧
        storedSurvivors codec (xs.filterMap t.apply) = .ok v := by
  rw [transformFrom_ofBytes hall]
  rcases codec.decodeFrom (Cursor.ofBytes bs) with _ | _ | xs <;> simp [Except.bind]

/-- It fails if the list cannot be read, or its survivors cannot be stored. -/
theorem transformFrom_eq_error_iff {e : StateError} :
    codec.transformFrom t (Cursor.ofBytes bs) [] = some (.error e)
      ↔ codec.decodeFrom (Cursor.ofBytes bs) = some (.error e) ∨
        ∃ xs, codec.decodeFrom (Cursor.ofBytes bs) = some (.ok xs) ∧
          storedSurvivors codec (xs.filterMap t.apply) = .error e := by
  rw [transformFrom_ofBytes hall]
  rcases codec.decodeFrom (Cursor.ofBytes bs) with _ | _ | xs <;> simp [Except.bind]

/-- What a stored value is transformed to is what the transformation comes to, with a codec that does
not go back. -/
theorem Codec.Forward.transformList_eq_iff (hc : codec.Forward)
    {r : Except StateError (Option Bytes)} :
    transformList codec t (some bs) = r ↔ codec.transformFrom t (Cursor.ofBytes bs) [] = some r := by
  constructor
  · rintro rfl
    cases hrun : codec.transformFrom t (Cursor.ofBytes bs) [] with
    | none =>
      have hread := (transformFrom_eq_none_iff hall).1 hrun
      exact absurd (hc.ends _) (decodeFrom_eq_none_iff.1 hread)
    | some r => rw [transformList, hrun, Option.await_some]
  · exact Option.await_eq

/-- Transforming a written list filters it, and a list without survivors becomes absent. -/
theorem Codec.Conforming.transformList_encodeList (hc : codec.Conforming) {xs : List α}
    (h : encodeList codec xs = .ok bs) :
    transformList codec t (some bs)
      = if xs.filterMap t.apply = [] then .ok none
        else (encodeList codec (xs.filterMap t.apply)).map some := by
  have hread : codec.decodeFrom (Cursor.ofBytes bs) = some (.ok xs) := hc.decodeFrom_encodeList h rfl
  refine Option.await_eq ?_
  rw [transformFrom_ofBytes hall, hread]
  rfl

end StoredValue

/-- **Transforming every element is reading, filtering and writing.** For every codec and whatever is
stored, a transformation of every element succeeds if the list can be read and either none of its
elements survives, and then nothing is stored, or the survivors can be written, and then their written
form is. It returns the error of reading, or else that of writing the survivors, if there is one. In
every other case reading does not return, and then the transformation does not either; with a codec
that does not go back reading returns. With a codec that conforms, bytes that are returned are therefore
the written form of a list with elements, and are read back as this list, whatever was stored before. -/
theorem transformList_all_outcome (codec : Codec α) (f : α → Option α) (bs : Bytes) :
    let reading := codec.decodeFrom (Cursor.ofBytes bs)
    let run := codec.transformFrom ⟨f, .transformAll⟩ (Cursor.ofBytes bs) []
    (run = some (.ok none) ↔ ∃ xs, reading = some (.ok xs) ∧ xs.filterMap f = []) ∧
    (∀ v, run = some (.ok (some v)) ↔
      ∃ xs, reading = some (.ok xs) ∧ xs.filterMap f ≠ [] ∧
        encodeList codec (xs.filterMap f) = .ok v) ∧
    (∀ e, run = some (.error e) ↔
      reading = some (.error e) ∨
        ∃ xs, reading = some (.ok xs) ∧ xs.filterMap f ≠ [] ∧
          encodeList codec (xs.filterMap f) = .error e) ∧
    (run = none ↔ reading = none) ∧
    (∀ r, run = some r → transformList codec ⟨f, .transformAll⟩ (some bs) = r) ∧
    (codec.Forward → reading = some (decodeList codec (some bs)) ∧
      run = some (transformList codec ⟨f, .transformAll⟩ (some bs))) ∧
    (codec.Conforming → ∀ v, run = some (.ok (some v)) →
      v ≠ [] ∧ ∃ ys, ys ≠ [] ∧ encodeList codec ys = .ok v ∧
        decodeList codec (some v) = .ok ys) := by
  refine ⟨?_, fun v => ?_, fun e => ?_, transformFrom_eq_none_iff rfl, fun r => Option.await_eq, fun hc => ?_,
    fun hc v hrun => ?_⟩
  · rw [transformFrom_eq_ok_iff rfl]
    simp only [storedSurvivors_eq_none_iff]
  · rw [transformFrom_eq_ok_iff rfl]
    simp only [storedSurvivors_eq_some_iff]
  · rw [transformFrom_eq_error_iff rfl]
    simp only [storedSurvivors_eq_error_iff]
  · exact ⟨hc.decodeList_eq_iff.1 rfl, (Codec.Forward.transformList_eq_iff rfl hc).1 rfl⟩
  · -- what is returned is the written form of the survivors
    obtain ⟨xs, -, hstored⟩ := (transformFrom_eq_ok_iff rfl).1 hrun
    obtain ⟨hne, hwritten⟩ := storedSurvivors_eq_some_iff.1 hstored
    exact ⟨hc.encodeList_ne_nil hne hwritten, _, hne, hwritten, hc.decodeList_encodeList hwritten⟩

/-- Two byte strings with a delimiter behind the second one, of which the first one goes: the
delimiter goes as well. -/
theorem transformList_all_drops_surplus_delimiter :
    let f : Bytes → Option Bytes := fun x => if x = [7] then none else some x
    let bs : Bytes := [1, 0, 0, 0, 7, delimiter, 1, 0, 0, 0, 8, delimiter]
    Codec.bytes.Conforming ∧
      transformList Codec.bytes ⟨f, .transformAll⟩ (some bs) = .ok (some [1, 0, 0, 0, 8]) ∧
      ∃ ys, ys ≠ [] ∧ encodeList Codec.bytes ys = .ok [1, 0, 0, 0, 8] ∧
        decodeList Codec.bytes (some [1, 0, 0, 0, 8]) = .ok ys := by
  intro f bs
  have hc := Codec.conforming_bytes
  obtain ⟨-, hkept, -, -, hreturned, -, hwritten⟩ := transformList_all_outcome Codec.bytes f bs
  have hread : Codec.bytes.decodeFrom (Cursor.ofBytes bs) = some (.ok [[7], [8]]) := by cbv
  have hrun := (hkept [1, 0, 0, 0, 8]).2 ⟨_, hread, by decide, rfl⟩
  exact ⟨hc, hreturned _ hrun, (hwritten hc _ hrun).2⟩

/-- **Not with all codecs.** With a codec that leads back in the input neither reading a list nor
transforming it returns, so there is neither a result nor an error. -/
theorem transformList_all_not_for_all_codecs :
    let stored := Cursor.ofBytes [0x61, delimiter, 0x62]
    Codec.rereading.decodeFrom stored = none ∧
      ∀ r, Codec.rereading.transformFrom ⟨some, .transformAll⟩ stored [] ≠ some r := by
  intro stored
  have hread : Codec.rereading.decodeFrom stored = none :=
    decodeFrom_eq_none_iff.2 Codec.not_ends_rereading
  refine ⟨hread, fun r hrun => ?_⟩
  rw [(transformFrom_eq_none_iff rfl).2 hread] at hrun
  cases hrun

end AppendLists
