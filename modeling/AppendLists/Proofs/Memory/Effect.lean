import AppendLists.Proofs.Memory.Pass

namespace AppendLists

/-!
# Changes told by contents

Whether a change succeeds and what it does to the contents of an open store depends on the contents
alone, so stores of equal contents stay so under the same changes.

* `Mutation.effect`: a change as a partial function on contents, `apply_effect`;
* `Mutation.applyAll`, `Mutation.effectAll`: several changes in turn, `applyAll_of_effectAll`,
  `effectAll_of_applyAll`;
* `Mutation.applyAll_preserves`: what every change preserves, several changes preserve;
* `MemoryStore.weight`: the number of partitions and entries, which no change raises by more than
  one, `weight_apply_le`, and no commit raises at all, `weight_commitDecisions_le`.
-/

namespace Mutation

/-- What a change makes of the contents of an open store. -/
def effect (c : Contents) : Mutation → Except StorageError Contents
  | .create name op =>
    match c.operator name with
    | some _ => .error (.partitionExists name)
    | none => .ok (c.addPartition name op)
  | .put name key value =>
    match c.operator name with
    | some _ => .ok (c.setValue name key (some value))
    | none => .error (.partitionNotFound name)
  | .merge name key operand =>
    match c.operator name with
    | some (some op) =>
      .ok (c.setValue name key (some (op.fullMerge (c.value name key) [operand])))
    | some none => .error (.mergeNotSupported name)
    | none => .error (.partitionNotFound name)
  | .delete name key =>
    match c.operator name with
    | some _ => .ok (c.setValue name key none)
    | none => .error (.partitionNotFound name)

variable {s u : MemoryStore}

/-- What the contents say about a partition is said of one that is there. -/
theorem partition_of_operator (hc : s.closed = false) {name : String} {op : Option MergeOperator}
    (h : s.contents.operator name = some op) :
    ∃ p, s.partition name = .ok p ∧ p.operator = op := by
  obtain ⟨p, hp, hop⟩ := Option.map_eq_some_iff.1 h
  exact ⟨p, MemoryStore.partition_of_found hc hp, hop⟩

/-- A partition that the contents do not have is not found. -/
theorem partition_of_operator_none (hc : s.closed = false) {name : String}
    (h : s.contents.operator name = none) :
    s.partition name = .error (.partitionNotFound name) :=
  MemoryStore.partition_of_missing hc (Option.map_eq_none_iff.1 h)

/-- A change of an open store succeeds or fails as its contents tell, and changes them so. -/
theorem apply_effect (hc : s.closed = false) (m : Mutation) :
    (∃ s', m.apply s = (.ok (), s') ∧ m.effect s.contents = .ok s'.contents ∧ s'.closed = false) ∨
      ∃ e s', m.apply s = (.error e, s') ∧ m.effect s.contents = .error e ∧
        s'.contents = s.contents ∧ s'.closed = false := by
  cases m with
  | create name op =>
    cases hop : s.contents.operator name with
    | none =>
      -- each case runs the call and reads off what became of the contents
      have hname := Option.map_eq_none_iff.1 hop
      have hrun := MemoryStore.create_run hc hname op
      have hcontents := MemoryStore.create_contents hc hname op
      rw [hrun] at hcontents
      exact .inl ⟨_, hrun, by simp only [effect, hop, hcontents], hc⟩
    | some op' =>
      have hhas : s.has name = true := by rw [MemoryStore.has_eq, hop]; rfl
      have hrun : MemoryStore.create name op s = (.error (.partitionExists name), s) := by
        simp [MemoryStore.create, hc, hhas]
      exact .inr ⟨_, _, hrun, by simp only [effect, hop], rfl, hc⟩
  | put name key value =>
    cases hop : s.contents.operator name with
    | some op =>
      obtain ⟨p, hp, rfl⟩ := partition_of_operator hc hop
      have hrun := MemoryStore.put_run hp key value
      have hcontents := MemoryStore.put_contents hp key value
      rw [hrun] at hcontents
      exact .inl ⟨_, hrun, by simp only [effect, hop, hcontents], hc⟩
    | none =>
      have hrun := MemoryStore.put_run_of_error (partition_of_operator_none hc hop) key value
      exact .inr ⟨_, _, hrun, by simp only [effect, hop], rfl, hc⟩
  | merge name key operand =>
    cases hop : s.contents.operator name with
    | some op =>
      obtain ⟨p, hp, hpop⟩ := partition_of_operator hc hop
      cases op with
      | some op =>
        have hrun := MemoryStore.merge_run hp hpop key operand
        have hcontents := MemoryStore.merge_contents hp hpop key operand
        rw [hrun] at hcontents
        exact .inl ⟨_, hrun, by simp only [effect, hop, hcontents], hc⟩
      | none =>
        have hrun := MemoryStore.merge_run_of_no_operator hp hpop key operand
        exact .inr ⟨_, _, hrun, by simp only [effect, hop], rfl, hc⟩
    | none =>
      have hrun := MemoryStore.merge_run_of_error (partition_of_operator_none hc hop) key operand
      exact .inr ⟨_, _, hrun, by simp only [effect, hop], rfl, hc⟩
  | delete name key =>
    cases hop : s.contents.operator name with
    | some op =>
      obtain ⟨p, hp, rfl⟩ := partition_of_operator hc hop
      have hrun := MemoryStore.delete_run hp key
      have hcontents := MemoryStore.delete_contents hp key
      rw [hrun] at hcontents
      exact .inl ⟨_, hrun, by simp only [effect, hop, hcontents], hc⟩
    | none =>
      have hrun := MemoryStore.delete_run_of_error (partition_of_operator_none hc hop) key
      exact .inr ⟨_, _, hrun, by simp only [effect, hop], rfl, hc⟩

/-- A change that has an effect succeeds with it. -/
theorem apply_of_effect (hc : s.closed = false) {m : Mutation} {c : Contents}
    (h : m.effect s.contents = .ok c) :
    ∃ s', m.apply s = (.ok (), s') ∧ s'.contents = c ∧ s'.closed = false := by
  rcases m.apply_effect hc with ⟨s', hrun, heffect, hc'⟩ | ⟨e, s', _, heffect, _⟩
  · rw [h] at heffect
    exact ⟨s', hrun, (Except.ok.inj heffect).symm, hc'⟩
  · rw [h] at heffect
    cases heffect

/-- A change that succeeds has that effect. -/
theorem effect_of_apply (hc : s.closed = false) {m : Mutation} {s' : MemoryStore}
    (h : m.apply s = (.ok (), s')) :
    m.effect s.contents = .ok s'.contents ∧ s'.closed = false := by
  rcases m.apply_effect hc with ⟨s₁, hrun, heffect, hc'⟩ | ⟨e, s₁, hrun, _⟩
  · rw [h] at hrun
    obtain rfl := (Prod.mk.inj hrun).2
    exact ⟨heffect, hc'⟩
  · rw [h] at hrun
    cases hrun

/-! ### Several changes -/

/-- The store after several changes, or the error of the first that fails. -/
def applyAll : List Mutation → MemoryStore → Except StorageError MemoryStore
  | [], s => .ok s
  | m :: ms, s =>
    match m.apply s with
    | (.ok (), s') => applyAll ms s'
    | (.error e, _) => .error e

/-- The contents after several changes, or the error of the first that fails. -/
def effectAll : List Mutation → Contents → Except StorageError Contents
  | [], c => .ok c
  | m :: ms, c =>
    match m.effect c with
    | .ok c' => effectAll ms c'
    | .error e => .error e

/-- Changes in turn are made in turn. -/
theorem applyAll_append {ms : List Mutation} {s s' : MemoryStore} (h : applyAll ms s = .ok s')
    (ms' : List Mutation) : applyAll (ms ++ ms') s = applyAll ms' s' := by
  induction ms generalizing s with
  | nil =>
    obtain rfl : s = s' := Except.ok.inj h
    rfl
  | cons m ms ih =>
    simp only [List.cons_append, applyAll] at h ⊢
    split at h
    · exact ih h
    · cases h

/-- If changes succeed in turn, then so do the first of them. -/
theorem applyAll_of_append {ms ms' : List Mutation} {s s'' : MemoryStore}
    (h : applyAll (ms ++ ms') s = .ok s'') :
    ∃ s', applyAll ms s = .ok s' ∧ applyAll ms' s' = .ok s'' := by
  induction ms generalizing s with
  | nil => exact ⟨s, rfl, h⟩
  | cons m ms ih =>
    simp only [List.cons_append, applyAll] at h ⊢
    split at h
    · exact ih h
    · cases h

/-- So are their effects. -/
theorem effectAll_append_eq (ms ms' : List Mutation) (c : Contents) :
    effectAll (ms ++ ms') c = effectAll ms c >>= effectAll ms' := by
  induction ms generalizing c with
  | nil => rfl
  | cons m ms ih =>
    simp only [List.cons_append, effectAll]
    split
    · case h_1 c' _ => exact ih c'
    · rfl

theorem effectAll_append {ms : List Mutation} {c c' : Contents} (h : effectAll ms c = .ok c')
    (ms' : List Mutation) : effectAll (ms ++ ms') c = effectAll ms' c' := by
  rw [effectAll_append_eq, h]
  rfl

/-- Changes that have an effect in turn succeed with it. -/
theorem applyAll_of_effectAll (hc : s.closed = false) {ms : List Mutation} {c : Contents}
    (h : effectAll ms s.contents = .ok c) :
    ∃ s', applyAll ms s = .ok s' ∧ s'.contents = c ∧ s'.closed = false := by
  induction ms generalizing s with
  | nil =>
    obtain rfl : s.contents = c := Except.ok.inj h
    exact ⟨s, rfl, rfl, hc⟩
  | cons m ms ih =>
    simp only [effectAll] at h
    split at h
    · case h_1 c₁ heffect =>
      obtain ⟨s₁, happly, rfl, hc₁⟩ := apply_of_effect hc heffect
      obtain ⟨s', hall, hcontents, hc'⟩ := ih hc₁ h
      exact ⟨s', by simp only [applyAll, happly, hall], hcontents, hc'⟩
    · cases h

/-- Changes that succeed in turn have that effect. -/
theorem effectAll_of_applyAll (hc : s.closed = false) {ms : List Mutation} {s' : MemoryStore}
    (h : applyAll ms s = .ok s') : effectAll ms s.contents = .ok s'.contents := by
  induction ms generalizing s with
  | nil =>
    obtain rfl : s = s' := Except.ok.inj h
    rfl
  | cons m ms ih =>
    simp only [applyAll] at h
    split at h
    · case h_1 s₁ happly =>
      obtain ⟨heffect, hc₁⟩ := effect_of_apply hc happly
      simp only [effectAll, heffect]
      exact ih hc₁ h
    · cases h

/-- A change neither opens nor closes the store. -/
theorem closed_apply (s : MemoryStore) (m : Mutation) : (m.apply s).2.closed = s.closed := by
  have ho := m.outcome s
  generalize m.apply s = r at ho
  cases ho <;> rfl

/-- What holds of a store and is preserved by every change holds after several changes. -/
theorem applyAll_preserves {P : MemoryStore → Prop} (hstep : ∀ s m, P s → P (apply m s).2)
    {ms : List Mutation} {s' : MemoryStore} (h : applyAll ms s = .ok s') (hs : P s) : P s' := by
  induction ms generalizing s with
  | nil =>
    obtain rfl : s = s' := Except.ok.inj h
    exact hs
  | cons m ms ih =>
    simp only [applyAll] at h
    split at h
    · case h_1 s₁ happly =>
      have hs₁ := hstep s m hs
      rw [happly] at hs₁
      exact ih h hs₁
    · cases h

/-- No change closes a store. -/
theorem closed_applyAll {ms : List Mutation} {s' : MemoryStore} (h : applyAll ms s = .ok s') :
    s'.closed = s.closed := by
  have hstep : ∀ u m, MemoryStore.closed u = s.closed → (apply m u).2.closed = s.closed :=
    fun u m hu => (closed_apply u m).trans hu
  exact applyAll_preserves hstep h rfl

/-- The invariant holds after several changes. -/
theorem sound_applyAll (hs : s.Sound) {ms : List Mutation} {s' : MemoryStore}
    (h : applyAll ms s = .ok s') : s'.Sound :=
  applyAll_preserves (fun _ m hu => hu.apply m) h hs

end Mutation

/-! ### The size of a store -/

/-- The partition itself and its entries, counted. -/
def Partition.weight (p : Partition) : Nat := 1 + p.entries.size

namespace MemoryStore

/-- The partitions and their entries, counted. -/
def weight (s : MemoryStore) : Nat := s.partitions.sumBy Partition.weight

variable {s : MemoryStore} {name : String} {p p' : Partition}

/-- A store changes its weight as the partition does that is replaced. -/
theorem weight_setPartition (hp : s.partitions.find? name = some p) (p' : Partition) :
    (s.setPartition name p').weight + p.weight = s.weight + p'.weight := by
  have hsum := Table.sumBy_insert Partition.weight s.partitions name p'
  rwa [hp, Option.map_some, Option.getD_some] at hsum

/-- A change adds one key or one partition at most. -/
theorem weight_apply_le (s : MemoryStore) (m : Mutation) : (m.apply s).2.weight ≤ s.weight + 1 := by
  have ho := m.outcome s
  generalize m.apply s = r at ho
  cases ho with
  | @created name op hc hname =>
    have hsum := Table.sumBy_insert Partition.weight s.partitions name ⟨op, Table.empty⟩
    rw [hname, Option.map_none, Option.getD_none] at hsum
    exact Nat.le_of_eq hsum
  | @put name p key value hp =>
    -- -- the key may have been there, and then the partition is no larger
    have hset := weight_setPartition (s := s.bumped) (partition_eq_ok_iff.1 hp).2
      (p.put key value s.nextVersion)
    have hsize : (p.put key value s.nextVersion).weight ≤ p.weight + 1 :=
      Nat.add_le_add_left (Table.size_insert_le ..) 1
    have hbumped : s.bumped.weight = s.weight := rfl
    simp only
    omega
  | @queued name p op key operand hp hop =>
    have hset := weight_setPartition (s := s.bumped) (partition_eq_ok_iff.1 hp).2
      (p.queue key operand s.nextVersion)
    have hsize : (p.queue key operand s.nextVersion).weight ≤ p.weight + 1 :=
      Nat.add_le_add_left (Table.size_insert_le ..) 1
    have hbumped : s.bumped.weight = s.weight := rfl
    simp only
    omega
  | @dropped name p key hp =>
    have hset := weight_setPartition (partition_eq_ok_iff.1 hp).2 (p.drop key)
    have hsize : (p.drop key).weight ≤ p.weight :=
      Nat.add_le_add_left (Table.size_erase_le ..) 1
    simp only
    omega
  | refused e => exact Nat.le_succ _
  | wasted e => exact Nat.le_succ _

/-- Changes in turn make a store heavier by their number at most. -/
theorem weight_applyAll_le {ms : List Mutation} {s' : MemoryStore}
    (h : Mutation.applyAll ms s = .ok s') : s'.weight ≤ s.weight + ms.length := by
  induction ms generalizing s with
  | nil =>
    obtain rfl : s = s' := Except.ok.inj h
    exact Nat.le_refl _
  | cons m ms ih =>
    simp only [Mutation.applyAll] at h
    split at h
    · case h_1 s₁ happly =>
      have hfirst := weight_apply_le s m
      rw [happly] at hfirst
      have hrest := ih h
      rw [List.length_cons]
      simp only at hfirst
      omega
    · cases h

/-- A commit adds none. -/
theorem weight_commitDecision_le (d : Decision) (p : Partition) (stats : CompactionStats) :
    (commitDecision d p stats).1.weight ≤ p.weight := by
  unfold commitDecision
  split
  · exact Nat.le_refl _
  · case h_2 e he =>
    split
    · exact Nat.le_refl _
    · split
      · exact Nat.add_le_add_left (Table.size_erase_le ..) 1
      · exact Nat.add_le_add_left (Nat.le_of_eq (Table.size_insert_of_found he _)) 1

theorem weight_commitDecisions_le (ds : List Decision) (p : Partition) (stats : CompactionStats) :
    (commitDecisions ds p stats).1.weight ≤ p.weight := by
  induction ds generalizing p stats with
  | nil => exact Nat.le_refl _
  | cons d ds ih => exact Nat.le_trans (ih _ _) (weight_commitDecision_le d p stats)

end MemoryStore

end AppendLists
