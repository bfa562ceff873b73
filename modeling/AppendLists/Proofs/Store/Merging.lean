import AppendLists.Proofs.Log.Durable
import AppendLists.Store.MergeOnRead

namespace AppendLists

/-!
# Ways of merging

What can be relied on about the partitions of a store, whichever store it is: a partition gets its
way of merging when it is created, keeps it, and merges by it; without one it refuses to merge. A
wrapper that merges by reading has these properties because the store inside reads back what was
put.

* `Merging`: stores with these properties;
* instances for memory stores, log stores, and wrapped stores of any kind.
-/

/-- A store whose partitions have a way of merging or none, which decides what a merge comes to. -/
class Merging (σ : Type) [Store σ] where
  /-- Whether the store refuses calls. -/
  closed : σ → Bool
  /-- The way of merging of each partition. -/
  way : σ → String → Option MergeOperator
  /-- A new partition gets its way of merging; without one, it keeps the way its name has. -/
  created : ∀ {name op} {s s' : σ}, Store.create name op s = (.ok (), s') → ∀ name',
    Store.has s' name' = (decide (name' = name) || Store.has s name') ∧
      way s' name' = if name' = name then op.or (way s name) else way s name'
  /-- A partition that is not created changes no other. -/
  not_created : ∀ {name op e} {s s' : σ}, Store.create name op s = (.error e, s') → ∀ name',
    Store.has s' name' = Store.has s name' ∧ way s' name' = way s name'
  /-- Reading changes nothing. -/
  get_snd : ∀ name key (s : σ), (Store.get name key s).2 = s
  /-- Reading needs no way of merging. -/
  get_supported : ∀ name key name' (s : σ),
    (Store.get name key s).1 ≠ .error (.mergeNotSupported name')
  /-- Writing needs none either. -/
  put_supported : ∀ name key value name' (s : σ),
    (Store.put name key value s).1 ≠ .error (.mergeNotSupported name')
  /-- What was put is read. -/
  get_of_put : ∀ {name key value} {s s' : σ}, Store.put name key value s = (.ok (), s') →
    (Store.get name key s').1 = .ok (some value)
  /-- A partition that has a way of merging supports merges. -/
  merge_supported : ∀ {name op} {s : σ}, way s name = some op → ∀ key operand name',
    (Store.merge name key operand s).1 ≠ .error (.mergeNotSupported name')
  /-- A partition that has none refuses them. -/
  merge_refused : ∀ {name} {s : σ}, closed s = false → Store.has s name = true →
    way s name = none → ∀ key operand,
    (Store.merge name key operand s).1 = .error (.mergeNotSupported name)
  /-- A merge combines its operand with what is read. -/
  get_of_merge : ∀ {name op key operand} {s s' : σ}, way s name = some op →
    Store.merge name key operand s = (.ok (), s') →
    ∃ value, (Store.get name key s).1 = .ok value ∧
      (Store.get name key s').1 = .ok (some (op.fullMerge value [operand]))

/-! ### Memory stores -/

namespace MemoryStore

variable {s s' : MemoryStore} {name : String}

theorem operator?_setPartition (s : MemoryStore) (name name' : String) (p : Partition) :
    (s.setPartition name p).operator? name'
      = if name' = name then p.operator else s.operator? name' := by
  by_cases h : name' = name <;> simp [operator?, h]

theorem has_setPartition (s : MemoryStore) (name name' : String) (p : Partition) :
    (s.setPartition name p).has name' = (decide (name' = name) || s.has name') := by
  by_cases h : name' = name <;> simp [has, Table.contains, h]

/-- Whether partitions merge is not asked when one is looked up. -/
theorem ne_mergeNotSupported_of_partition {e : StorageError} (h : s.partition name = .error e)
    (name' : String) : e ≠ .mergeNotSupported name' := by
  rintro rfl
  unfold partition at h
  split at h
  · cases h
  · split at h <;> cases h

/-- A way of merging belongs to a partition. -/
theorem exists_partition_of_operator? {op : MergeOperator} (h : s.operator? name = some op) :
    ∃ p, s.partitions.find? name = some p ∧ p.operator = some op :=
  Option.bind_eq_some_iff.1 h

/-- A merge into a partition that has a way of merging is queued, or the store is closed. -/
theorem merge_cases {op : MergeOperator} (h : s.operator? name = some op) (key operand : Bytes) :
    (merge name key operand s).1 = .error .closed ∨
      ∃ p, s.partition name = .ok p ∧ p.operator = some op ∧ merge name key operand s
        = (.ok (), s.bumped.setPartition name (p.queue key operand s.nextVersion)) := by
  obtain ⟨p, hfound, hop⟩ := exists_partition_of_operator? h
  cases hc : s.closed with
  | true =>
    have hclosed : s.partition name = .error .closed := by simp [partition, hc]
    rw [merge_run_of_error hclosed]
    exact .inl rfl
  | false =>
    have hp := partition_of_found hc hfound
    exact .inr ⟨p, hp, hop, merge_run hp hop key operand⟩

instance : Merging MemoryStore where
  closed := closed
  way := operator?
  created {name op s s'} h name' := by
    rcases create_cases name op s with ⟨e, hrun⟩ | ⟨-, hname, hrun⟩
    · cases hrun.symm.trans h
    · obtain rfl := (Prod.mk.inj (hrun.symm.trans h)).2
      have hnone : s.operator? name = none := by simp [operator?, hname]
      rw [hnone, Option.or_none]
      exact ⟨has_setPartition .., operator?_setPartition ..⟩
  not_created {name op e s s'} h name' := by
    rcases create_cases name op s with ⟨e', hrun⟩ | ⟨-, -, hrun⟩
    · obtain rfl := (Prod.mk.inj (hrun.symm.trans h)).2
      exact ⟨rfl, rfl⟩
    · cases hrun.symm.trans h
  get_snd _ _ _ := rfl
  get_supported name key name' s := by
    show (s.partition name).map _ ≠ _
    cases hp : s.partition name with
    | ok p => nofun
    | error e => exact mt Except.error.inj (ne_mergeNotSupported_of_partition hp name')
  put_supported name key value name' s := by
    show (put name key value s).1 ≠ _
    cases hp : s.partition name with
    | ok p =>
      rw [put_run hp]
      nofun
    | error e =>
      rw [put_run_of_error hp]
      exact mt Except.error.inj (ne_mergeNotSupported_of_partition hp name')
  get_of_put {name key value s s'} h := by
    change put name key value s = _ at h
    cases hp : s.partition name with
    | error e =>
      rw [put_run_of_error hp] at h
      cases h
    | ok p =>
      have hc := (partition_eq_ok_iff.1 hp).1
      rw [put_run hp] at h
      obtain rfl := (Prod.mk.inj h).2
      have hp' : (s.bumped.setPartition name (p.put key value s.nextVersion)).partition name
          = .ok (p.put key value s.nextVersion) := partition_of_found hc (by simp)
      show (get name key _).1 = _
      rw [get_run hp', Partition.value?_put, if_pos rfl]
  merge_supported {name op s} h key operand name' := by
    rcases merge_cases h key operand with hclosed | ⟨p, -, -, hrun⟩
    · show (merge name key operand s).1 ≠ _
      rw [hclosed]
      nofun
    · show (merge name key operand s).1 ≠ _
      rw [hrun]
      nofun
  merge_refused {name s} hc hhas h key operand := by
    obtain ⟨p, hfound⟩ := Option.isSome_iff_exists.1 hhas
    have hop : p.operator = none := by simpa [operator?, hfound] using h
    show (merge name key operand s).1 = _
    rw [merge_run_of_no_operator (partition_of_found hc hfound) hop]
  get_of_merge {name op key operand s s'} h hmerge := by
    rcases merge_cases h key operand with hclosed | ⟨p, hp, hop, hrun⟩
    · change merge name key operand s = _ at hmerge
      rw [hmerge] at hclosed
      cases hclosed
    · obtain rfl := (Prod.mk.inj (hrun.symm.trans hmerge)).2
      have hp' : (s.bumped.setPartition name (p.queue key operand s.nextVersion)).partition name
          = .ok (p.queue key operand s.nextVersion) :=
        partition_of_found (partition_eq_ok_iff.1 hp).1 (by simp)
      refine ⟨p.value? key, congrArg Prod.fst (get_run hp key), ?_⟩
      show (get name key _).1 = _
      rw [get_run hp', Partition.value?_queue hop, if_pos rfl]

end MemoryStore

/-! ### Log stores -/

namespace LogStore

/-- A change of a log store fails without a trace, for a reason that the store in memory has,
because its entry is too long; or it is made to the store in memory. -/
theorem logThenApply_cases (m : Mutation) (s : LogStore) :
    (∃ e, logThenApply m s = (.error e, s) ∧
        (e = .closed ∨ refusal s.memory m = .error e ∨
          ∃ size limit, e = .entryRefused size limit)) ∨
      ∃ s', logThenApply m s = (.ok (), s') ∧ m.apply s.memory = (.ok (), s'.memory) := by
  cases hc : s.memory.closed with
  | true => exact .inl ⟨.closed, by simp [logThenApply, hc], .inl rfl⟩
  | false =>
    rcases logThenApply_run hc m with ⟨e, hrun, hcause⟩ | ⟨s', bs, hrun, -, -, -, happly, -⟩
    · refine .inl ⟨e, hrun, .inr ?_⟩
      rcases hcause with heffect | hframe
      · left
        rw [refusal_eq_effect, heffect]
        rfl
      · right
        unfold LogEntry.frame at hframe
        simp only at hframe
        split at hframe
        · cases hframe
        · exact ⟨_, _, (Except.error.inj hframe).symm⟩
    · exact .inr ⟨s', hrun, happly⟩

/-- Only a merge is refused for want of a way of merging, and only where there is none. -/
theorem refusal_ne_mergeNotSupported {memory : MemoryStore} {m : Mutation}
    (h : ∀ name key operand, m = .merge name key operand → (memory.operator? name).isSome)
    (name' : String) : refusal memory m ≠ .error (.mergeNotSupported name') := by
  cases m with
  | create name op =>
    simp only [refusal]
    split <;> simp
  | put name key value =>
    simp only [refusal]
    split <;> simp
  | merge name key operand =>
    simp only [refusal, h name key operand rfl, if_true]
    split <;> simp
  | delete name key =>
    simp only [refusal]
    split <;> simp

/-- Neither does the log store refuse any other change for that. -/
theorem logThenApply_supported {s : LogStore} {m : Mutation}
    (h : ∀ name key operand, m = .merge name key operand → (s.memory.operator? name).isSome)
    (name' : String) : (logThenApply m s).1 ≠ .error (.mergeNotSupported name') := by
  rcases logThenApply_cases m s with ⟨e, hrun, hcause⟩ | ⟨s', hrun, -⟩
  · rw [hrun]
    rintro heq
    obtain rfl := Except.error.inj heq
    rcases hcause with hclosed | hrefusal | ⟨size, limit, hframe⟩
    · cases hclosed
    · exact refusal_ne_mergeNotSupported h name' hrefusal
    · cases hframe
  · rw [hrun]
    nofun

/-- A change that succeeds is made to the store in memory. -/
theorem apply_of_logThenApply {m : Mutation} {s s' : LogStore}
    (h : logThenApply m s = (.ok (), s')) : m.apply s.memory = (.ok (), s'.memory) := by
  rcases logThenApply_cases m s with ⟨e, hrun, -⟩ | ⟨s₁, hrun, happly⟩
  · cases hrun.symm.trans h
  · obtain rfl := (Prod.mk.inj (hrun.symm.trans h)).2
    exact happly

instance : Merging LogStore where
  closed s := s.memory.closed
  way s := s.memory.operator?
  created {name op s s'} h :=
    Merging.created (σ := MemoryStore) (apply_of_logThenApply h)
  not_created {name op e s s'} h name' := by
    rcases logThenApply_cases (.create name op) s with ⟨e', hrun, -⟩ | ⟨s₁, hrun, -⟩
    · obtain rfl := (Prod.mk.inj (hrun.symm.trans h)).2
      exact ⟨rfl, rfl⟩
    · cases hrun.symm.trans h
  get_snd _ _ _ := rfl
  get_supported name key name' s := Merging.get_supported name key name' s.memory
  put_supported name key value name' s := logThenApply_supported (by simp) name'
  get_of_put {name key value s s'} h :=
    Merging.get_of_put (σ := MemoryStore) (apply_of_logThenApply h)
  merge_supported {name op s} h key operand name' := by
    apply logThenApply_supported
    rintro name key operand ⟨⟩
    rw [h]
    rfl
  merge_refused {name s} hc hhas h key operand := by
    show (logThenApply (.merge name key operand) s).1 = _
    have hhas' : s.memory.has name = true := hhas
    have hnone : s.memory.operator? name = none := h
    have hclosed : s.memory.closed = false := hc
    simp [logThenApply, hclosed, refusal, hhas', hnone]
  get_of_merge {name op key operand s s'} h hmerge :=
    Merging.get_of_merge (σ := MemoryStore) h (apply_of_logThenApply hmerge)

end LogStore

/-! ### Wrapped stores -/

namespace MergeOnRead

variable {σ : Type} [Store σ] [Merging σ] {s : MergeOnRead σ} {name : String}

omit [Merging σ] in
theorem merge_of_way {op : MergeOperator} (h : s.operators.find? name = some op)
    (key operand : Bytes) :
    merge name key operand s
      = (onInner (Store.get name key) >>= fun value =>
          onInner (Store.put name key (op.fullMerge value [operand]))) s := by
  show Call.andThen (Call.query _) _ s = _
  simp only [Call.andThen, Call.query, h]

omit [Merging σ] in
theorem merge_of_no_way (h : s.operators.find? name = none) (key operand : Bytes) :
    merge name key operand s = (.error (.mergeNotSupported name), s) := by
  show Call.andThen (Call.query _) _ s = _
  simp only [Call.andThen, Call.query, h]

/-- A merge by reading, told from the calls of the store inside. -/
theorem merge_cases {op : MergeOperator} (h : s.operators.find? name = some op)
    (key operand : Bytes) :
    (∃ e, (Store.get name key s.inner).1 = .error e ∧ (merge name key operand s).1 = .error e) ∨
      ∃ value, (Store.get name key s.inner).1 = .ok value ∧ merge name key operand s
        = onInner (Store.put name key (op.fullMerge value [operand])) s := by
  have hsame := Merging.get_snd name key s.inner
  rw [merge_of_way h]
  rcases hget : Store.get name key s.inner with ⟨e | value, inner⟩
  · have hread : onInner (Store.get name key) s = (.error e, { s with inner }) := by
      simp [onInner, hget]
    rw [Call.bind_of_error hread]
    exact .inl ⟨e, rfl, rfl⟩
  · obtain rfl : inner = s.inner := by rw [← hsame, hget]
    have hread : onInner (Store.get name key) s = (.ok value, s) := by simp only [onInner, hget]
    rw [Call.bind_of_ok hread]
    exact .inr ⟨value, rfl, rfl⟩

/-- A wrapped store reads what was put. -/
theorem get_of_put {key value : Bytes} {s' : MergeOnRead σ}
    (h : onInner (Store.put name key value) s = (.ok (), s')) :
    (Store.get name key s'.inner).1 = .ok (some value) := by
  rcases hput : Store.put name key value s.inner with ⟨e | ⟨⟩, inner⟩
  · simp [onInner, hput] at h
  · have hinner : onInner (Store.put name key value) s = (.ok (), { s with inner }) := by
      simp [onInner, hput]
    obtain rfl := (Prod.mk.inj (hinner.symm.trans h)).2
    exact Merging.get_of_put hput

instance : Merging (MergeOnRead σ) where
  closed s := Merging.closed s.inner
  way s name := s.operators.find? name
  created {name op s s'} h name' := by
    obtain ⟨⟨⟩, s₁, hinner, hupdate⟩ := Call.bind_eq_ok_iff.1 h
    rcases hcreate : Store.create name none s.inner with ⟨e | ⟨⟩, inner⟩
    · simp [onInner, hcreate] at hinner
    · simp only [onInner, hcreate] at hinner
      obtain rfl := (Prod.mk.inj hinner).2
      have hhas := (Merging.created hcreate name').1
      cases op with
      | none =>
        obtain rfl := (Prod.mk.inj hupdate).2
        refine ⟨hhas, ?_⟩
        by_cases hname : name' = name <;> simp [hname]
      | some op =>
        obtain rfl := (Prod.mk.inj hupdate).2
        refine ⟨hhas, ?_⟩
        by_cases hname : name' = name <;> simp [hname]
  not_created {name op e s s'} h name' := by
    rcases hcreate : Store.create name none s.inner with ⟨e | ⟨⟩, inner⟩
    · have hinner : onInner (Store.create name none) s = (.error e, { s with inner }) := by
        simp [onInner, hcreate]
      obtain rfl := (Prod.mk.inj ((Call.bind_of_error hinner _).symm.trans h)).2
      exact ⟨(Merging.not_created hcreate name').1, rfl⟩
    · -- the way of merging is noted without fail
      have hinner : onInner (Store.create name none) s = (.ok (), { s with inner }) := by
        simp [onInner, hcreate]
      have hnote := (Call.bind_of_ok hinner _).symm.trans h
      cases op <;> cases hnote
  get_snd name key s := by
    have hsame := Merging.get_snd name key s.inner
    show MergeOnRead.mk (Store.get name key s.inner).2 s.operators = s
    rw [hsame]
  get_supported name key name' s := Merging.get_supported name key name' s.inner
  put_supported name key value name' s := Merging.put_supported name key value name' s.inner
  get_of_put h := get_of_put h
  merge_supported {name op s} h key operand name' := by
    show (merge name key operand s).1 ≠ _
    rcases merge_cases h key operand with ⟨e, hget, hrun⟩ | ⟨value, -, hrun⟩
    · have hne := Merging.get_supported name key name' s.inner
      rw [hrun]
      exact fun heq => hne (hget.trans (congrArg Except.error (Except.error.inj heq)))
    · rw [hrun]
      exact Merging.put_supported name key _ name' s.inner
  merge_refused _ _ h key operand := congrArg Prod.fst (merge_of_no_way h key operand)
  get_of_merge {name op key operand s s'} h hmerge := by
    change merge name key operand s = _ at hmerge
    rcases merge_cases h key operand with ⟨e, -, hrun⟩ | ⟨value, hget, hrun⟩
    · rw [hmerge] at hrun
      cases hrun
    · rw [hmerge] at hrun
      exact ⟨value, hget, get_of_put hrun.symm⟩

end MergeOnRead

end AppendLists
