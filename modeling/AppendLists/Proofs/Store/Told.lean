import AppendLists.Proofs.State.Guards
import AppendLists.Proofs.Store.Wrapped

namespace AppendLists

/-!
# Stores told by contents

A memory store, and one inside a wrapper that merges by reading, answer from their contents and
change them as the calls say. What is built on stores only needs to know that.

* `Told`: stores of this kind, with the invariant under which they are;
* `Told.call_of_effect`, `put_run`, `delete_run`, `create_run`: changes that have an effect;
* `Told.Confined`, `guards_confined`: what calls on one partition leave alone;
* instances for memory stores and wrapped memory stores.
-/

/-- A store that is told by contents: as long as it is sound, it reads what its contents say, and a
change does to them what it does to those of a memory store, or fails where that does and does
nothing. -/
class Told (σ : Type) [Store σ] where
  /-- What can be told of a store. -/
  see : σ → Contents
  /-- The invariant. -/
  Sound : σ → Prop
  /-- A partition is there if it has an entry among the ways of merging. -/
  has : ∀ {s : σ}, Sound s → ∀ name, Store.has s name = ((see s).operator name).isSome
  /-- Reading changes nothing. -/
  get_snd : ∀ name key (s : σ), (Store.get name key s).2 = s
  /-- The values are read. -/
  get : ∀ {s : σ}, Sound s → ∀ {name}, ((see s).operator name).isSome → ∀ key,
    Store.get name key s = (.ok ((see s).value name key), s)
  /-- Changes have their effects. -/
  change : ∀ {s : σ}, Sound s → ∀ w : Mutation,
    (∃ s', w.call s = (.ok (), s') ∧ w.effect (see s) = .ok (see s') ∧ Sound s') ∨
      ∃ e e' s', w.call s = (.error e, s') ∧ w.effect (see s) = .error e' ∧ see s' = see s ∧
        Sound s'

namespace Told

variable {σ : Type} [Store σ] [Told σ] {s : σ} {name : String}

/-! ### Changes that have an effect -/

/-- A change whose effect is known is made as such. -/
theorem call_of_effect (h : Sound s) {w : Mutation} {c : Contents}
    (heffect : w.effect (see s) = .ok c) :
    ∃ s', w.call s = (.ok (), s') ∧ see s' = c ∧ Sound s' := by
  rcases change h w with ⟨s', hrun, hc, hs'⟩ | ⟨e, e', s', -, hnone, -⟩
  · rw [heffect] at hc
    exact ⟨s', hrun, (Except.ok.inj hc).symm, hs'⟩
  · rw [heffect] at hnone
    cases hnone

/-- A put into a partition that is there is made. -/
theorem put_run (h : Sound s) (hname : ((see s).operator name).isSome) (key value : Bytes) :
    ∃ s', Store.put name key value s = (.ok (), s') ∧
      see s' = (see s).setValue name key (some value) ∧ Sound s' := by
  obtain ⟨op, hop⟩ := Option.isSome_iff_exists.1 hname
  exact call_of_effect (w := .put name key value) h (by simp only [Mutation.effect, hop])

/-- So is a delete. -/
theorem delete_run (h : Sound s) (hname : ((see s).operator name).isSome) (key : Bytes) :
    ∃ s', Store.delete name key s = (.ok (), s') ∧
      see s' = (see s).setValue name key none ∧ Sound s' := by
  obtain ⟨op, hop⟩ := Option.isSome_iff_exists.1 hname
  exact call_of_effect (w := .delete name key) h (by simp only [Mutation.effect, hop])

/-- So is the creation of one that is not there. -/
theorem create_run (h : Sound s) (hname : (see s).operator name = none)
    (op : Option MergeOperator) :
    ∃ s', Store.create name op s = (.ok (), s') ∧ see s' = (see s).addPartition name op ∧
      Sound s' :=
  call_of_effect (w := .create name op) h (by simp only [Mutation.effect, hname])

/-! ### Calls on one partition -/

/-- A sound store that has the partitions of `c`, and their values but for one of them. -/
structure Confined (name : String) (c : Contents) (s : σ) : Prop where
  /-- The invariant. -/
  sound : Sound s
  /-- The partitions. -/
  operator : (see s).operator = c.operator
  /-- The values in the others. -/
  elsewhere : ∀ other, other ≠ name → (see s).value other = c.value other

/-- A write sets a value of its partition, if it has an effect. -/
theorem Confined.change {c : Contents} (h : Confined name c s) {w : Mutation}
    (hw : ∀ c c', w.effect c = .ok c' → ∃ key value, c' = c.setValue name key value) :
    Confined name c (w.call s).2 := by
  rcases Told.change h.sound w with ⟨s', hrun, heffect, hs'⟩ | ⟨e, e', s', hrun, -, hsee, hs'⟩
  · obtain ⟨key, value, hset⟩ := hw _ _ heffect
    rw [hrun]
    refine ⟨hs', ?_, fun other hother => ?_⟩
    · rw [hset]
      exact h.operator
    · rw [hset, ← h.elsewhere other hother]
      funext key'
      exact if_neg fun heq => hother heq.1
  · rw [hrun]
    refine ⟨hs', by rw [hsee, h.operator], fun other hother => ?_⟩
    rw [hsee, h.elsewhere other hother]

/-- Handles leave other partitions alone. -/
theorem guards_confined (name : String) (c : Contents) :
    Guards name (fun _ => True) (Confined (σ := σ) name c) where
  get key s h := by
    rw [get_snd]
    exact ⟨h, fun _ _ _ _ => trivial⟩
  put key value _ s h := by
    -- whether the write succeeds depends on the partition; if it does, it sets one value in it
    refine ⟨h.change (w := .put name key value) fun c c' heffect => ?_, fun _ _ => trivial⟩
    simp only [Mutation.effect] at heffect
    split at heffect
    · exact ⟨key, _, (Except.ok.inj heffect).symm⟩
    · cases heffect
  delete key s h := by
    refine ⟨h.change (w := .delete name key) fun c c' heffect => ?_, fun _ _ => trivial⟩
    simp only [Mutation.effect] at heffect
    split at heffect
    · exact ⟨key, _, (Except.ok.inj heffect).symm⟩
    · cases heffect
  merge key value _ s h := by
    refine ⟨h.change (w := .merge name key value) fun c c' heffect => ?_, fun _ _ => trivial⟩
    simp only [Mutation.effect] at heffect
    split at heffect
    · exact ⟨key, _, (Except.ok.inj heffect).symm⟩
    · cases heffect
    · cases heffect

end Told

/-! ### Stores of this kind -/

instance : Told MemoryStore where
  see := MemoryStore.contents
  Sound s := s.closed = false
  has _ name := MemoryStore.has_eq _ name
  get_snd := Merging.get_snd
  get {s} h name hname key := by
    obtain ⟨op, hop⟩ := Option.isSome_iff_exists.1 hname
    obtain ⟨p, hp, -⟩ := Mutation.partition_of_operator h hop
    have hvalue : s.contents.value name key = p.value? key := MemoryStore.value?_of_partition hp key
    rw [hvalue]
    exact MemoryStore.get_run hp key
  change {s} h w := by
    have hcall : (w.call : Call MemoryStore StorageError Unit) = w.apply := by cases w <;> rfl
    rw [hcall]
    rcases w.apply_effect h with ⟨s', hrun, heffect, hopen⟩ | ⟨e, s', hrun, heffect, hsame, hopen⟩
    · exact .inl ⟨s', hrun, heffect, hopen⟩
    · exact .inr ⟨e, e, s', hrun, heffect, hsame, hopen⟩

instance : Told (MergeOnRead MemoryStore) where
  see := MergeOnRead.contents
  Sound := MergeOnRead.Sound
  has {m} _ name := by
    rw [MergeOnRead.operator_contents, Option.isSome_map]
    exact MemoryStore.has_eq _ name
  get_snd := Merging.get_snd
  get {m} h name hname key := by
    rw [MergeOnRead.operator_contents, Option.isSome_map] at hname
    obtain ⟨op, hop⟩ := Option.isSome_iff_exists.1 hname
    exact MergeOnRead.onInner_of_run (MergeOnRead.get_inner h hop key)
  change h w := MergeOnRead.call_effect h w

end AppendLists
