import AppendLists.Proofs.State.Moves

namespace AppendLists

/-!
# Moves that fail

A move is not undone. When a call of the store fails, the sources before are moved and those behind
are untouched; the one in between is untouched as well, unless it was the merge that failed, for then
its value is deleted and not appended.

* `MoveStage`, `MoveFails`: the call of a move that fails;
* `moveValue_error`, `moveValues_error`: a move fails at one of its sources, those before it moved;
* `Contents.Interrupted`, `Contents.interrupted_of_moveAll`: what is left of everything;
* `LikeMemory.contents_of_moveFails`, `LikeMemory.moveValues_fails`: one move that fails, and several.
-/

variable {σ : Type} [Store σ] {name : String} {target source : Bytes} {sources : List Bytes}
  {stats : MoveStats} {s s' : σ} {e : StateError}

/-- The calls of a move. -/
inductive MoveStage where
  /-- The source is read. -/
  | reading
  /-- The source is deleted. -/
  | deleting
  /-- The value of the source is merged. -/
  | merging
deriving DecidableEq

/-- Moving one source, the call of the stage fails; `cause` is the error of the store. -/
inductive MoveFails (name : String) (target source : Bytes) (s : σ) (cause : StorageError)
    (s' : σ) : MoveStage → Prop where
  /-- The source cannot be read. -/
  | reading (h : Store.get name source s = (.error cause, s')) :
      MoveFails name target source s cause s' .reading
  /-- The source has a value and cannot be deleted. -/
  | deleting {value : Bytes} {s₁ : σ} (hget : Store.get name source s = (.ok (some value), s₁))
      (hne : value ≠ []) (h : Store.delete name source s₁ = (.error cause, s')) :
      MoveFails name target source s cause s' .deleting
  /-- The value of the source, which is deleted by then, cannot be merged. -/
  | merging {value : Bytes} {s₁ s₂ : σ} (hget : Store.get name source s = (.ok (some value), s₁))
      (hne : value ≠ []) (hdelete : Store.delete name source s₁ = (.ok (), s₂))
      (h : Store.merge name target value s₂ = (.error cause, s')) :
      MoveFails name target source s cause s' .merging

/-- A move fails with the error of the call that fails. -/
theorem moveValue_error (h : moveValue name target source stats s = (.error e, s')) :
    ∃ stage cause, e = .access .mergingNamespaces cause ∧
      MoveFails name target source s cause s' stage := by
  rcases hget : Store.get name source s with ⟨cause | found, s₁⟩
  · rw [moveValue_of_get_error hget] at h
    obtain ⟨he, rfl⟩ := Prod.mk.inj h
    exact ⟨.reading, cause, (Except.error.inj he).symm, .reading hget⟩
  · cases hfound : found.filter (· ≠ []) with
    | none =>
      rw [moveValue_of_nothing hget hfound] at h
      cases h
    | some value =>
      obtain ⟨rfl, hne⟩ := Option.filter_eq_some_iff.1 hfound
      have hne : value ≠ [] := by simpa using hne
      rw [moveValue_of_get hget hne] at h
      -- the first of the other two calls that fails is the error
      rcases Call.bind_eq_error_iff.1 h with hdelete | ⟨⟨⟩, s₂, hdelete, h⟩
      · obtain ⟨cause, he, hdelete⟩ := Call.attempting_eq_error_iff.1 hdelete
        exact ⟨.deleting, cause, he, .deleting hget hne hdelete⟩
      · rcases Call.bind_eq_error_iff.1 h with hmerge | ⟨⟨⟩, s₃, -, h⟩
        · obtain ⟨cause, he, hmerge⟩ := Call.attempting_eq_error_iff.1 hmerge
          exact ⟨.merging, cause, he,
            .merging hget hne (Call.attempting_eq_ok_iff.1 hdelete) hmerge⟩
        · cases h

/-- Moves in turn fail at one of the sources, when those before it are moved. -/
theorem moveValues_error (h : moveValues name target sources stats s = (.error e, s')) :
    ∃ done source behind stats₁ s₁ stage cause, sources = done ++ source :: behind ∧
      moveValues name target done stats s = (.ok stats₁, s₁) ∧
      e = .access .mergingNamespaces cause ∧ MoveFails name target source s₁ cause s' stage := by
  induction sources generalizing s stats with
  | nil => cases h
  | cons source sources ih =>
    unfold moveValues at h
    rcases Call.bind_eq_error_iff.1 h with hone | ⟨stats₁, s₁, hone, hrest⟩
    · obtain ⟨stage, cause, he, hfails⟩ := moveValue_error hone
      exact ⟨[], source, sources, stats, s, stage, cause, rfl, rfl, he, hfails⟩
    · obtain ⟨done, source', behind, stats₂, s₂, stage, cause, rfl, hdone, he, hfails⟩ := ih hrest
      exact ⟨source :: done, source', behind, stats₂, s₂, stage, cause, rfl,
        (Call.bind_of_ok hone _).trans hdone, he, hfails⟩

/-- What a failed move leaves of the contents `before`: the sources in `done` are moved, the one
called `source` was in between, those in `behind` are untouched. -/
structure Contents.Interrupted (before after : Contents) (name : String) (target : Bytes)
    (done : List Bytes) (source : Bytes) (behind : List Bytes) (stage : MoveStage) : Prop where
  /-- Of the sources that are moved, those that had something to move are gone. -/
  emptied : ∀ key ∈ done, (before.movable name key).isSome → after.value name key = none
  /-- The target has their values behind its own, in order and as the partition merges. -/
  appended : ∃ op : MergeOperator,
    (done.filterMap (before.movable name) ≠ [] → before.operator name = some (some op)) ∧
    after.value name target
      = op.appended (before.value name target) (done.filterMap (before.movable name))
  /-- The source in between is lost if its value was deleted and not merged, else untouched. -/
  between : after.value name source
    = if stage = .merging then none else before.value name source
  /-- The other sources are untouched. -/
  waiting : ∀ key ∈ behind, after.value name key = before.value name key
  /-- So are all other keys. -/
  elsewhere : ∀ name' key, (name' = name → key ≠ target ∧ key ≠ source ∧
      ¬ (key ∈ done ∧ (before.movable name key).isSome)) →
    after.value name' key = before.value name' key
  /-- Partitions merge as before. -/
  operators : after.operator = before.operator

namespace Contents

variable {before after : Contents} {done behind : List Bytes} {stage : MoveStage}

/-- The moves before a failure, and what that failure costs, are all that has happened. -/
theorem interrupted_of_moveAll (hnodup : (done ++ source :: behind).Nodup)
    (htarget : target ∉ done ++ source :: behind)
    (hway : (∀ key ∈ done, before.movable name key = none) ∨
      ∃ op, before.operator name = some (some op))
    (hafter : after = if stage = .merging
      then (before.moveAll name target done).setValue name source none
      else before.moveAll name target done) :
    before.Interrupted after name target done source behind stage := by
  obtain ⟨hdoneNodup, hrestNodup, hdisjoint⟩ := List.nodup_append.1 hnodup
  obtain ⟨hsourceBehind, -⟩ := List.nodup_cons.1 hrestNodup
  simp only [List.mem_append, List.mem_cons, not_or] at htarget
  obtain ⟨htargetDone, htargetSource, htargetBehind⟩ := htarget
  have hsourceDone : source ∉ done := fun hmem => hdisjoint _ hmem _ List.mem_cons_self rfl
  -- everywhere but at the source in between only the moves before it count
  have hvalue : ∀ name' key, (name' = name → key ≠ source) →
      after.value name' key = (before.moveAll name target done).value name' key := by
    intro name' key hne
    rw [hafter]
    split
    · rw [value_setValue, if_neg fun heq => hne heq.1 heq.2]
    · rfl
  have helsewhere : ∀ name' key, (name' = name → key ≠ target ∧ key ≠ source ∧
      ¬ (key ∈ done ∧ (before.movable name key).isSome)) →
      after.value name' key = before.value name' key := by
    intro name' key hother
    rw [hvalue name' key fun hname => (hother hname).2.1]
    exact value_moveAll_elsewhere fun hname => ⟨(hother hname).1, (hother hname).2.2⟩
  constructor
  case emptied =>
    intro key hkey hmovable
    have hne : key ≠ target := fun heq => htargetDone (heq ▸ hkey)
    rw [hvalue name key fun _ heq => hsourceDone (heq ▸ hkey), value_moveAll hne,
      if_pos ⟨hkey, hmovable⟩]
  case appended =>
    rw [hvalue name target fun _ => htargetSource]
    rcases hway with hnone | ⟨op, hop⟩
    · -- with nothing to move no way of merging is needed, and any will do
      have hvalues : done.filterMap (before.movable name) = [] := List.filterMap_eq_nil_iff.2 hnone
      rw [hvalues, moveAll_of_not_movable hnone]
      exact ⟨.stringAppend 0, fun hne => absurd rfl hne, rfl⟩
    · rw [value_moveAll_target hop htargetDone, eraseDups_of_nodup hdoneNodup]
      exact ⟨op, fun _ => hop, rfl⟩
  case between =>
    rw [hafter]
    split
    · exact value_setValue_self none
    · exact value_moveAll_elsewhere fun _ =>
        ⟨fun heq => htargetSource heq.symm, fun hmem => hsourceDone hmem.1⟩
  case waiting =>
    intro key hkey
    have hkeyDone : key ∉ done := fun hmem =>
      hdisjoint _ hmem _ (List.mem_cons_of_mem _ hkey) rfl
    exact helsewhere name key fun _ => ⟨fun heq => htargetBehind (heq ▸ hkey),
      fun heq => hsourceBehind (heq ▸ hkey), fun hmem => hkeyDone hmem.1⟩
  case elsewhere => exact helsewhere
  case operators =>
    rw [hafter]
    split
    · exact operator_moveAll ..
    · exact operator_moveAll ..

end Contents

namespace LikeMemory

variable {see : σ → Contents} (hlike : LikeMemory see)
include hlike

/-- Only a merge that fails has left a trace: the source is gone. -/
theorem contents_of_moveFails {stage : MoveStage} {cause : StorageError}
    (h : MoveFails name target source s cause s' stage) :
    see s' = if stage = .merging then (see s).setValue name source none else see s := by
  cases h with
  | reading h => exact hlike.get_error h
  | deleting hget _ h => exact (hlike.delete_error h).trans (hlike.get_ok hget).2
  | merging hget _ hdelete h =>
    rw [hlike.merge_error h, hlike.delete_ok hdelete, (hlike.get_ok hget).2]
    rfl

/-- Moves of distinct sources that fail do so at one of them: those before it are moved, it is
untouched or, if it was the merge that failed, lost, and all else is as it was. -/
theorem moveValues_fails (hnodup : sources.Nodup) (htarget : target ∉ sources)
    (h : moveValues name target sources .none s = (.error e, s')) :
    ∃ done source behind stats₁ s₁ stage cause, sources = done ++ source :: behind ∧
      moveValues name target done .none s = (.ok stats₁, s₁) ∧
      e = .access .mergingNamespaces cause ∧ MoveFails name target source s₁ cause s' stage ∧
      (see s).Interrupted (see s') name target done source behind stage := by
  obtain ⟨done, source, behind, stats₁, s₁, stage, cause, rfl, hdone, he, hfails⟩ :=
    moveValues_error h
  obtain ⟨hsee, hway, -⟩ := hlike.moveValues_ok hdone
  have hafter := hlike.contents_of_moveFails hfails
  rw [hsee] at hafter
  exact ⟨done, source, behind, stats₁, s₁, stage, cause, rfl, hdone, he, hfails,
    Contents.interrupted_of_moveAll hnodup htarget hway hafter⟩

end LikeMemory

/-- The second merge fails: the first source is moved, the second is lost, the third is untouched. -/
theorem moveValues_fails_at_second_merge :
    let lists := Foreground.runAll [.change (.create "lists" (some (.stringAppend delimiter))),
      .change (.put "lists" [0] [10]), .change (.put "lists" [1] [11]),
      .change (.put "lists" [2] [12]), .change (.put "lists" [3] [13])] MemoryStore.empty
    let s := (FaultyStore.reliable lists).failAfter .merge 1
    let sources : List Bytes := [[1], [2], [3]]
    let after := (moveValues "lists" [0] sources .none s).2
    LikeMemory FaultyStore.contents ∧ sources.Nodup ∧ [0] ∉ sources ∧
      moveValues "lists" [0] sources .none s
        = (.error (.access .mergingNamespaces (.device .diskFull)), after) ∧
      (after.contents.value "lists" [0] = some [10, delimiter, 11] ∧
        after.contents.value "lists" [1] = none ∧ after.contents.value "lists" [2] = none ∧
        after.contents.value "lists" [3] = some [13]) ∧
      ∃ done source behind stage, sources = done ++ source :: behind ∧
        s.contents.Interrupted after.contents "lists" [0] done source behind stage := by
  intro lists s sources after
  have hlike := FaultyStore.likeMemory
  have hnodup : sources.Nodup := by decide
  have htarget : [0] ∉ sources := by decide
  have herror : (moveValues "lists" [0] sources .none s).1
      = .error (.access .mergingNamespaces (.device .diskFull)) := rfl
  have hrun := Prod.ext herror (rfl : _ = after)
  obtain ⟨done, source, behind, -, -, stage, -, hsplit, -, -, -, hleft⟩ :=
    hlike.moveValues_fails hnodup htarget hrun
  have hvalues : after.contents.value "lists" [0] = some [10, delimiter, 11] ∧
      after.contents.value "lists" [1] = none ∧ after.contents.value "lists" [2] = none ∧
      after.contents.value "lists" [3] = some [13] := by
    decide +kernel
  exact ⟨hlike, hnodup, htarget, hrun, hvalues, done, source, behind, stage, hsplit, hleft⟩

end AppendLists
