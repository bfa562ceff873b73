import AppendLists.Proofs.Call
import AppendLists.Proofs.ListFormat.RoundTrip
import AppendLists.State.List

namespace AppendLists

/-!
# What the calls of list handles keep

A list handle reads, replaces, removes and appends in one partition, and writes nothing but lists. A
property of stores that these four calls keep is kept by everything that handles are called for,
over a store of any kind, and also by what fails.

* `Guards`: such a property, with a condition on what is written;
* `Guards.moveValues`: moves between keys;
* `ListState.after_forEach`: a visit comes down to a read;
* `ListState.keeps_getRaw`, `keeps_get`, `keeps_add`, `keeps_addAll`, `keeps_update`, `keeps_clear`,
  `keeps_mergeNamespaces`: the calls of a handle.
-/

variable {α σ : Type} [Store σ] {name : String} {W : Bytes → Prop} {P : σ → Prop}

/-- Whether the calls that handles make on a partition keep `P`, as long as what they put and merge
satisfies `W`. What they get satisfies it then. -/
structure Guards (name : String) (W : Bytes → Prop) (P : σ → Prop) : Prop where
  /-- Reading. -/
  get : ∀ key, Call.Keeps P (Store.get name key)
    fun value : Option Bytes => ∀ v, value = some v → W v
  /-- Replacing. -/
  put : ∀ key value, W value → Call.Keeps P (Store.put name key value) fun _ => True
  /-- Removing. -/
  delete : ∀ key, Call.Keeps P (Store.delete name key) fun _ => True
  /-- Appending. -/
  merge : ∀ key value, W value → Call.Keeps P (Store.merge name key value) fun _ => True

namespace Guards

/-- A value that is moved was in the store before. -/
theorem moveValue (hP : Guards name W P) (target source : Bytes) (stats : MoveStats) :
    Call.Keeps P (moveValue name target source stats) fun _ => True := by
  unfold AppendLists.moveValue
  apply ((hP.get source).attempting _).bind
  intro value hvalue
  split
  · case h_1 b bs =>
    apply ((hP.delete source).attempting _).bind
    intro _ _
    exact ((hP.merge target _ (hvalue _ rfl)).attempting _).bind fun _ _ => .answer trivial
  · exact .answer trivial

theorem moveValues (hP : Guards name W P) (target : Bytes) (sources : List Bytes)
    (stats : MoveStats) : Call.Keeps P (moveValues name target sources stats) fun _ => True := by
  induction sources generalizing stats with
  | nil => exact .answer trivial
  | cons source sources ih =>
    exact (hP.moveValue target source stats).bind fun stats' _ => ih stats'

end Guards

namespace ListState

/-- A visit to the elements of a list reads the list and leaves the store alone otherwise. -/
theorem after_forEach {τ : Type} (h : ListState α) (visit : α → Call τ StateError Unit)
    (s : σ) (t : τ) : (h.forEach visit (s, t)).2.1 = (h.getRaw s).2 := by
  rcases hraw : (h.getRaw : Call σ StateError (Option Bytes)) s with ⟨e | raw, s'⟩
  · have hfirst : h.getRaw.onFirst (s, t) = (.error e, s', t) := by simp [Call.onFirst, hraw]
    rw [forEach, Call.bind_of_error hfirst]
  · have hfirst : h.getRaw.onFirst (s, t) = (.ok raw, s', t) := by simp [Call.onFirst, hraw]
    rw [forEach, Call.bind_of_ok hfirst]
    cases raw <;> rfl

variable {h : ListState α} (hP : Guards h.context.partition W P)
include hP

/-- What is found is what may be written. -/
theorem keeps_getRaw : Call.Keeps P h.getRaw fun value => ∀ v, value = some v → W v := by
  apply (Call.Keeps.ofExcept _).bind
  intro key _
  exact (hP.get key).attempting _

/-- Reading writes nothing. -/
theorem keeps_get : Call.Keeps P h.get fun _ => True :=
  (keeps_getRaw hP).bind fun raw _ s hs =>
    ⟨(Call.Keeps.ofExcept (decodeList h.codec raw) s hs).1, fun _ _ => trivial⟩

/-- Clearing is a delete. -/
theorem keeps_clear : Call.Keeps P h.clear fun _ => True := by
  apply (Call.Keeps.ofExcept _).bind
  intro key _
  exact (hP.delete key).attempting _

/-- Appending is a merge of something that may be written. -/
theorem keeps_mergeFragment {fragment : Bytes} (hfragment : W fragment) :
    Call.Keeps P (h.mergeFragment fragment) fun _ => True := by
  apply (Call.Keeps.ofExcept _).bind
  intro key _
  exact (hP.merge key _ hfragment).attempting _

/-- Moving lists writes nothing that was not there. -/
theorem keeps_mergeNamespaces (target : Part) (sources : List Part) :
    Call.Keeps P (h.mergeNamespaces target sources) fun _ => True := by
  unfold mergeNamespaces
  split
  · exact .answer trivial
  · apply (Call.Keeps.ofExcept _).bind
    intro targetKey _
    apply (Call.Keeps.ofExcept _).bind
    intro sourceKeys _
    exact hP.moveValues targetKey sourceKeys .none

variable (hW : ∀ xs bs, xs ≠ [] → encodeList h.codec xs = .ok bs → W bs)
include hW

/-- An element is written alone before it is appended. -/
theorem keeps_add (x : α) : Call.Keeps P (h.add x) fun _ => True := by
  apply (Call.Keeps.ofExcept _).bind
  intro fragment hfragment
  rw [← encodeList_singleton] at hfragment
  exact keeps_mergeFragment hP (hW [x] _ (by simp) hfragment)

/-- Elements are written together before they are appended; without any, nothing is. -/
theorem keeps_addAll (xs : List α) : Call.Keeps P (h.addAll xs) fun _ => True := by
  unfold addAll
  split
  · exact .answer trivial
  · case isFalse hxs =>
    apply (Call.Keeps.ofExcept _).bind
    intro fragment hfragment
    exact keeps_mergeFragment hP (hW xs _ (by simpa using hxs) hfragment)

/-- A list replaces the value, and the empty list deletes it. -/
theorem keeps_update (xs : List α) : Call.Keeps P (h.update xs) fun _ => True := by
  unfold update
  split
  · exact keeps_clear hP
  · case isFalse hxs =>
    apply (Call.Keeps.ofExcept _).bind
    intro key _
    apply (Call.Keeps.ofExcept _).bind
    intro bs hbs
    exact (hP.put key _ (hW xs _ (by simpa using hxs) hbs)).attempting _

end ListState

end AppendLists
