import AppendLists.Proofs.Memory.Effect
import AppendLists.Proofs.Memory.Interleaving

namespace AppendLists

/-!
# Passes amid changes, told by contents

When changes come between the capture of a pass and its commit, a pure filter applies to exactly the
keys that none of them wrote or removed. The counters of the pass tell whether it made any difference,
whatever came in between: if they are all zero, the contents are the same after the commit.

* `Contents.passExcept`: the contents after a pass that spares some keys;
* `Foreground.runAll_of_applyAll`, `Foreground.touched_iff_of_applyAll`: changes that all succeed, as
  calls in the foreground;
* `MemoryStore.commit_amid_cases`: what a commit finds of each key, and what it makes of it;
* `MemoryStore.contents_commit_amid`: what it makes of the contents;
* `MemoryStore.contents_commit_of_no_changes`: a commit that counts nothing.
-/

/-- The contents after a pass with a pure filter over a partition, in which the keys that changes
wrote or removed are left alone. -/
def Contents.passExcept (c : Contents) (name : String) (filter : Option PureFilter)
    (during : List Mutation) : Contents where
  operator := c.operator
  value name' key :=
    if name' = name ∧ ∀ m ∈ during, (Foreground.change m).touches name key = false then
      (c.value name' key).bind (PureFilter.keep filter)
    else c.value name' key

/-- Without changes in between, no key is left alone. -/
theorem Contents.passExcept_nil (c : Contents) (name : String) (filter : Option PureFilter) :
    c.passExcept name filter [] = c.pass name filter := by
  simp [passExcept, pass]

/-! ### Changes that all succeed -/

section

variable {s s' : MemoryStore} {name : String} {ms : List Mutation}

theorem Foreground.runAll_of_applyAll (h : Mutation.applyAll ms s = .ok s') :
    runAll (ms.map .change) s = s' := by
  induction ms generalizing s with
  | nil => exact Except.ok.inj h
  | cons m ms ih =>
    simp only [Mutation.applyAll] at h
    split at h
    · case h_1 s₁ happly =>
      rw [List.map_cons, runAll, apply, happly]
      exact ih h
    · cases h

/-- Each of them touches what it is about. -/
theorem Foreground.touched_iff_of_applyAll (h : Mutation.applyAll ms s = .ok s') (key : Bytes) :
    Touched name key (ms.map .change) s ↔ ∃ m ∈ ms, (change m).touches name key = true := by
  induction ms generalizing s with
  | nil => simp [Touched]
  | cons m ms ih =>
    simp only [Mutation.applyAll] at h
    split at h
    · case h_1 s₁ happly =>
      have happly' : (change m).apply s = (.ok (), s₁) := happly
      rw [List.map_cons, Touched, happly', ih h]
      simp
    · cases h

/-- A change leaves the ways of merging of the partitions that are there. -/
theorem Mutation.operator_effect {c c' : Contents} {m : Mutation} (h : m.effect c = .ok c')
    {op : Option MergeOperator} (hop : c.operator name = some op) :
    c'.operator name = some op := by
  cases m with
  | create name' op' =>
    simp only [effect] at h
    split at h
    · cases h
    · case h_2 hmissing =>
      obtain rfl := Except.ok.inj h
      have hne : name ≠ name' := by
        rintro rfl
        rw [hop] at hmissing
        cases hmissing
      simp [Contents.addPartition, hne, hop]
  | put name' key value =>
    simp only [effect] at h
    split at h
    · obtain rfl := Except.ok.inj h
      exact hop
    · cases h
  | merge name' key operand =>
    simp only [effect] at h
    split at h
    · obtain rfl := Except.ok.inj h
      exact hop
    · cases h
    · cases h
  | delete name' key =>
    simp only [effect] at h
    split at h
    · obtain rfl := Except.ok.inj h
      exact hop
    · cases h

/-- So a partition is found again after changes, with its way of merging. -/
theorem Mutation.partition_applyAll {p : Partition} (hp : s.partition name = .ok p)
    (h : Mutation.applyAll ms s = .ok s') :
    ∃ q, s'.partition name = .ok q ∧ q.operator = p.operator := by
  induction ms generalizing s p with
  | nil =>
    obtain rfl := Except.ok.inj h
    exact ⟨p, hp, rfl⟩
  | cons m ms ih =>
    obtain ⟨hc, hfound⟩ := MemoryStore.partition_eq_ok_iff.1 hp
    simp only [Mutation.applyAll] at h
    split at h
    · case h_1 s₁ happly =>
      obtain ⟨heffect, hc₁⟩ := effect_of_apply hc happly
      have hop : s.contents.operator name = some p.operator := by
        simp only [MemoryStore.contents, hfound, Option.map_some]
      obtain ⟨p₁, hp₁, hsame⟩ := partition_of_operator hc₁ (operator_effect heffect hop)
      obtain ⟨q, hq, hop'⟩ := ih hp₁ h
      exact ⟨q, hq, hop'.trans hsame⟩
    · cases h

end

/-- The value of a key depends on its entry and the way of merging. -/
theorem Partition.value?_congr {p q : Partition} (hop : p.operator = q.operator) {key : Bytes}
    (h : p.entries.find? key = q.entries.find? key) : p.value? key = q.value? key := by
  have hresolve : p.resolve = q.resolve := by
    funext e
    rw [resolve, resolve, hop]
  rw [value?, value?, h, hresolve]

/-! ### What is counted -/

/-- A decision that neither removes nor rewrites keeps the value that was captured. -/
theorem Decision.outcome_eq_of_keeps {d : Decision} (hremoves : d.removes = false)
    (hrewrites : d.rewrites = false) : d.outcome = d.captured.value := by
  cases ho : d.outcome with
  | none => simp [removes, ho] at hremoves
  | some value => simpa [rewrites, ho] using hrewrites

namespace MemoryStore

theorem changes_commitDecision_le (d : Decision) (p : Partition) (stats : CompactionStats) :
    stats.changes ≤ (commitDecision d p stats).2.changes := by
  unfold commitDecision CompactionStats.changes
  split
  · exact Nat.le_refl _
  · split
    · exact Nat.le_refl _
    · split
      · simp only
        omega
      · simp only
        omega

theorem changes_commitDecisions_le (ds : List Decision) (p : Partition) (stats : CompactionStats) :
    stats.changes ≤ (commitDecisions ds p stats).2.changes := by
  induction ds generalizing p stats with
  | nil => exact Nat.le_refl _
  | cons d ds ih => exact Nat.le_trans (changes_commitDecision_le d p stats) (ih _ _)

/-- If nothing is counted, the decisions about entries that are still there keep their values. -/
theorem outcome_eq_of_no_changes {ds : List Decision} {q : Partition} {stats : CompactionStats}
    (hnodup : (ds.map (·.captured.key)).Nodup)
    (hzero : (commitDecisions ds q stats).2.changes = 0) {d : Decision} (hd : d ∈ ds)
    (hcurrent : d.Current q) : d.outcome = d.captured.value := by
  induction ds generalizing q stats with
  | nil => cases hd
  | cons d' ds ih =>
    obtain ⟨hd', hnodup⟩ := List.nodup_cons.1 hnodup
    rw [commitDecisions] at hzero
    rcases List.mem_cons.1 hd with rfl | hd
    · -- what this decision counts is never taken back
      have hle := changes_commitDecisions_le ds (commitDecision d q stats).1
        (commitDecision d q stats).2
      rw [stats_commitDecision hcurrent] at hle
      simp only [stats_commitDecision hcurrent] at hzero
      rw [hzero] at hle
      simp only [CompactionStats.changes] at hle
      apply Decision.outcome_eq_of_keeps
      · apply Bool.eq_false_iff.2
        intro hremoves
        rw [if_pos hremoves] at hle
        omega
      · apply Bool.eq_false_iff.2
        intro hrewrites
        rw [if_pos hrewrites] at hle
        omega
    · have hne : d.captured.key ≠ d'.captured.key := by
        intro heq
        exact hd' (List.mem_map.2 ⟨d, hd, heq⟩)
      have hafter : d.Current (commitDecision d' q stats).1 := by
        obtain ⟨e, he, hv⟩ := hcurrent
        exact ⟨e, by rw [find?_commitDecision, if_neg hne, he], hv⟩
      exact ih hnodup hzero hd hafter

/-! ### A commit amid changes

The partition `p` is captured from `s`, the changes `during` succeed in turn, and `q` is what the
commit finds under the name. -/

variable {s u : MemoryStore} {name : String} {p q : Partition} {during : List Mutation}
  {filter : Option PureFilter} {ds : List Decision}

/-- A key that a change wrote or removed keeps its value, and one that was not captured has none; any
other one is found as it was captured, and gets its outcome. -/
theorem commit_amid_cases (hs : s.Sound) (hp : s.partition name = .ok p)
    (hrun : Mutation.applyAll during s = .ok u) (hq : u.partition name = .ok q)
    (hds : ds.map (·.captured) = p.captured) (stats : CompactionStats) (key : Bytes) :
    ((commitDecisions ds q stats).1.value? key = q.value? key ∧
        ((∃ m ∈ during, (Foreground.change m).touches name key = true) ∨ q.value? key = none)) ∨
      ∃ d ∈ ds, d.captured.key = key ∧ d.Current q ∧ d.captured.value = q.value? key ∧
        ¬ (∃ m ∈ during, (Foreground.change m).touches name key = true) ∧
        (commitDecisions ds q stats).1.value? key = d.outcome := by
  have hop : q.operator = p.operator := by
    obtain ⟨q', hq', hop⟩ := Mutation.partition_applyAll hp hrun
    obtain rfl := Except.ok.inj (hq.symm.trans hq')
    exact hop
  have hafter : (commitDecisions ds q stats).1.operator = q.operator := operator_commitDecisions ..
  rw [← Foreground.runAll_of_applyAll hrun] at hq
  simp only [← Foreground.touched_iff_of_applyAll hrun key]
  -- what is found of a key that was not touched
  have hfound : ¬ Foreground.Touched name key (during.map .change) s →
      q.entries.find? key = p.entries.find? key := fun ht => by
    rw [← entryAt_of_partition hq, entryAt_runAll ht, entryAt_of_partition hp]
  by_cases hkey : key ∈ ds.map (·.captured.key)
  · obtain ⟨d, hd, rfl⟩ := List.mem_map.1 hkey
    by_cases ht : Foreground.Touched name d.captured.key (during.map .change) s
    · have hsame := find?_commit_of_touched hs hp hq hds hd ht stats
      exact .inl ⟨Partition.value?_congr hafter hsame, .inl ht⟩
    · have hvalue := Partition.value_of_mem_captured (hds ▸ List.mem_map.2 ⟨d, hd, rfl⟩)
      have hcurrent : d.Current q := by
        obtain ⟨e, he, hv⟩ := Partition.current_of_captured hds hd
        exact ⟨e, (hfound ht).trans he, hv⟩
      refine .inr ⟨d, hd, rfl, hcurrent, ?_, ht, ?_⟩
      · rw [hvalue, Partition.value?_congr hop (hfound ht)]
      · rw [Partition.value?, find?_commit_of_untouched hp hq hds hd ht]
        cases d.outcome <;> rfl
  · refine .inl ⟨Partition.value?_congr hafter (find?_commitDecisions_of_not_mem hkey q stats), ?_⟩
    by_cases ht : Foreground.Touched name key (during.map .change) s
    · exact .inl ht
    · -- there was no entry to capture, and there still is none
      have hnone : p.entries.find? key = none := by
        apply Option.not_isSome_iff_eq_none.1
        intro hsome
        apply hkey
        have hmem := Table.mem_keys_iff.2 hsome
        rwa [← Partition.keys_captured, ← hds, List.map_map] at hmem
      right
      rw [Partition.value?, hfound ht, hnone]
      rfl

/-- So the pass filters the keys that no change wrote or removed. -/
theorem value?_commit_amid (hs : s.Sound) (hp : s.partition name = .ok p)
    (hrun : Mutation.applyAll during s = .ok u) (hq : u.partition name = .ok q)
    (hds : PureFilter.decisions filter p.captured = .ok ds) (stats : CompactionStats)
    (key : Bytes) :
    (commitDecisions ds q stats).1.value? key
      = if ∀ m ∈ during, (Foreground.change m).touches name key = false then
          (q.value? key).bind (PureFilter.keep filter)
        else q.value? key := by
  have hcaptured : ds.map (·.captured) = p.captured := PureFilter.captured_of_decisions hds
  rcases commit_amid_cases hs hp hrun hq hcaptured stats key with
    ⟨hsame, ⟨m, hm, htouches⟩ | hnone⟩ | ⟨d, hd, rfl, hcurrent, hvalue, htouched, houtcome⟩
  · rw [if_neg, hsame]
    intro hspared
    rw [hspared m hm] at htouches
    cases htouches
  · rw [hsame, hnone]
    exact (ite_self none).symm
  · rw [if_pos (by simpa using htouched), houtcome, ← hvalue]
    -- an entry always has a value, so the filter was asked about one
    have hsome : d.captured.value.isSome := by
      obtain ⟨e, he, -⟩ := Partition.current_of_captured hcaptured hd
      rw [Partition.value_of_mem_captured (hcaptured ▸ List.mem_map.2 ⟨d, hd, rfl⟩),
        (hs.of_partition hp).value?_isSome, he]
      rfl
    obtain ⟨value, hv⟩ := Option.isSome_iff_exists.1 hsome
    have hdecided := PureFilter.decide_of_mem_decisions hds hd
    rw [hv] at hdecided ⊢
    rw [Option.bind_some, PureFilter.keep, hdecided]

/-- What the commit of a pure pass makes of the contents, whatever changed since the capture. -/
theorem contents_commit_amid (hs : s.Sound) (hp : s.partition name = .ok p)
    (hrun : Mutation.applyAll during s = .ok u) (hq : u.partition name = .ok q)
    (hds : PureFilter.decisions filter p.captured = .ok ds) (stats : CompactionStats) :
    (u.setPartition name (commitDecisions ds q stats).1).contents
      = u.contents.passExcept name filter during := by
  have hfound := (partition_eq_ok_iff.1 hq).2
  refine contents_setPartition_eq hfound (operator_commitDecisions ..) rfl (fun key => ?_)
    fun other hother key => if_neg fun h => hother h.1
  simp [Contents.passExcept, contents, value?, hfound,
    value?_commit_amid hs hp hrun hq hds stats]

/-- A commit that counts nothing leaves the contents as they are, whatever was decided. -/
theorem contents_commit_of_no_changes (hs : s.Sound) (hp : s.partition name = .ok p)
    (hrun : Mutation.applyAll during s = .ok u) (hq : u.partition name = .ok q)
    (hds : ds.map (·.captured) = p.captured) {stats : CompactionStats}
    (hzero : (commitDecisions ds q stats).2.changes = 0) :
    (u.setPartition name (commitDecisions ds q stats).1).contents = u.contents := by
  apply (contents_setPartition_eq_iff (partition_eq_ok_iff.1 hq).2 (operator_commitDecisions ..)).2
  intro key
  rcases commit_amid_cases hs hp hrun hq hds stats key with
    ⟨hsame, -⟩ | ⟨d, hd, rfl, hcurrent, hvalue, -, houtcome⟩
  · exact hsame
  · have hkeeps := outcome_eq_of_no_changes (Partition.nodup_of_captured hds) hzero hd hcurrent
    rw [houtcome, hkeeps, hvalue]

end MemoryStore

end AppendLists
