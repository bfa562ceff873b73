import Mathlib
import AppendLists.Proofs.ListFormat.EarlyExit
import AppendLists.Proofs.Log.Durable
import AppendLists.Proofs.Memory.Interleaving

namespace AppendLists

/-!
# One pass is enough

A pass that transforms lists may write them anew, cut their fronts off, remove keys and combine
operands. What it leaves behind is such that the same pass has nothing more to do: each value is one
that the filter keeps as it is, and no operands are pending. A log store therefore does not write its
log anew either.

* `PureFilter.Settles`: a filter keeps what it has made of any value;
* `ElementTransformer.Idempotent`, `settles_of_all`, `settles_of_stop`: transforming lists is such a
  filter, in the one strategy because a written list is read back, in the other because the bytes
  handed back begin with an element that stays;
* `Partition.Settled`, `settled_of_decisions`: what a pass leaves behind;
* `commitDecisions_of_settled`, `Settled.decisions_eq`: the same pass over that;
* `MemoryStore.compact_settled`, `LogStore.compact_settled`: whole passes;
* `transform_pass_converges`: the second of two passes reports nothing and changes nothing.
-/

/-! ### Filters that keep what they have made -/

/-- What the filter has made of a value, it keeps as it is. -/
def PureFilter.Settles (f : PureFilter) : Prop :=
  ∀ value kept, f.outcome value = .ok (some kept) → f.outcome (some kept) = .ok (some kept)

variable {α : Type} {codec : Codec α} {t : ElementTransformer α}

/-- What the transformer has made of an element, it keeps as it is. -/
def ElementTransformer.Idempotent (t : ElementTransformer α) : Prop :=
  ∀ x y, t.apply x = some y → t.apply y = some y

/-- The filter that transforms the lists of a codec. -/
def transformPass (codec : Codec α) (t : ElementTransformer α) : PureFilter :=
  ⟨transformName codec, transformList codec t⟩

theorem ElementTransformer.Idempotent.filterMap_filterMap (h : t.Idempotent) (xs : List α) :
    (xs.filterMap t.apply).filterMap t.apply = xs.filterMap t.apply := by
  have hkept : ∀ y ∈ xs.filterMap t.apply, t.apply y = some y := by
    intro y hy
    obtain ⟨x, -, hx⟩ := List.mem_filterMap.1 hy
    exact h x y hx
  rw [List.filterMap_congr hkept, List.filterMap_some]

/-- Survivors that were written are read back and survive again. -/
theorem Codec.Conforming.settles_of_all (hc : codec.Conforming) (hforward : codec.Forward)
    (hall : t.strategy = .transformAll) (ht : t.Idempotent) : (transformPass codec t).Settles := by
  rintro (_ | bs) kept h
  · cases h
  · -- what was kept is the written form of the survivors
    have hrun : transformList codec t (some bs) = .ok (some kept) := h
    rw [hforward.transformList_eq_iff hall, transformFrom_eq_ok_iff hall] at hrun
    obtain ⟨xs, -, hstored⟩ := hrun
    obtain ⟨hsome, hwrite⟩ := storedSurvivors_eq_some_iff.1 hstored
    show transformList codec t (some kept) = _
    rw [hc.transformList_encodeList hall hwrite, ht.filterMap_filterMap, if_neg hsome, hwrite]
    rfl

/-- The bytes from an element that stays on begin with an element that stays. -/
theorem Codec.PositionFree.settles_of_stop (hfree : codec.PositionFree)
    (hstop : t.strategy = .stopOnFirstIncluded) : (transformPass codec t).Settles := by
  rintro (_ | bs) kept h
  · cases h
  · rcases (hfree.transformList_eq_iff hstop).1 h with @⟨dropped, c, c', x, y, hreads, -, hnext, hkept⟩
    have hrest : c.rest = (Cursor.ofBytes (bs.drop c.position)).rest := hfree.rest_of_reads hreads
    obtain ⟨d', hnext', -⟩ := hfree.decodeNext_of_rest hrest hnext
    exact (hfree.transformList_eq_iff hstop).2
      (.kept (.here _) (List.forall_mem_nil _) hnext' hkept)

/-! ### Partitions with nothing left to do -/

namespace Partition

/-- Every entry is a value that the filter keeps as it is. -/
def Settled (f : PureFilter) (p : Partition) : Prop :=
  ∀ key e, p.entries.find? key = some e →
    ∃ value, e = ⟨some value, [], e.version⟩ ∧ f.outcome (some value) = .ok (some value)

variable {f : PureFilter} {p : Partition} {ds : List Decision}

/-- A pass leaves nothing to do, whatever it found. -/
theorem settled_of_decisions (hf : f.Settles)
    (hds : PureFilter.decisions (some f) p.captured = .ok ds) (stats : CompactionStats) :
    (MemoryStore.commitDecisions ds p stats).1.Settled f := by
  have hcaptured := PureFilter.captured_of_decisions hds
  intro key e he
  -- every key that is left was captured, and what it holds is the outcome of its decision
  have hkey : key ∈ ds.map (·.captured.key) := by
    by_contra hnot
    have hkeys : ds.map (·.captured.key) = p.entries.keys := by
      rw [← keys_captured, ← hcaptured, List.map_map]
      rfl
    rw [MemoryStore.find?_commitDecisions_of_not_mem hnot] at he
    rw [hkeys, Table.mem_keys_iff, he] at hnot
    exact hnot rfl
  obtain ⟨d, hd, rfl⟩ := List.mem_map.1 hkey
  rw [find?_commitDecisions_of_unchanged hcaptured hd rfl] at he
  obtain ⟨value, houtcome, rfl⟩ := Option.map_eq_some_iff.1 he
  have hdecide := PureFilter.decide_of_mem_decisions hds hd
  rw [houtcome] at hdecide
  exact ⟨value, rfl, hf _ _ hdecide⟩

/-- What is captured where nothing is left to do. -/
theorem Settled.of_mem_captured (h : p.Settled f) {c : Captured} (hc : c ∈ p.captured) :
    ∃ value, c.value = some value ∧ c.pending = 0 ∧
      p.entries.find? c.key = some ⟨some value, [], c.version⟩ ∧
      f.outcome (some value) = .ok (some value) := by
  obtain ⟨e, he, hce⟩ := mem_captured_iff.1 hc
  obtain ⟨value, hentry, houtcome⟩ := h _ e he
  have hversion : c.version = e.version := by
    rw [hce]
    rfl
  refine ⟨value, ?_, ?_, ?_, houtcome⟩
  · rw [hce, hentry]
    rfl
  · rw [hce, hentry]
    rfl
  · rw [hversion, ← hentry, he]

/-- Every value is decided to stay. -/
theorem Settled.decisions_eq (h : p.Settled f) {cs : List Captured} (hcs : ∀ c ∈ cs, c ∈ p.captured) :
    PureFilter.decisions (some f) cs = .ok (cs.map fun c => ⟨c, c.value⟩) := by
  induction cs with
  | nil => rfl
  | cons c cs ih =>
    obtain ⟨hhere, hothers⟩ := List.forall_mem_cons.1 hcs
    obtain ⟨value, hvalue, -, -, houtcome⟩ := h.of_mem_captured hhere
    have hdecide : PureFilter.decide (some f) c.value = .ok c.value := by rwa [hvalue]
    rw [PureFilter.decisions_cons_of_ok hdecide, ih hothers]
    rfl

/-- Carrying that out changes nothing and counts nothing. -/
theorem Settled.commitDecision_eq (h : p.Settled f) {c : Captured} (hc : c ∈ p.captured)
    (stats : CompactionStats) : MemoryStore.commitDecision ⟨c, c.value⟩ p stats = (p, stats) := by
  obtain ⟨value, hvalue, hpending, he, -⟩ := h.of_mem_captured hc
  have hstay := Table.insert_of_found he
  simp [MemoryStore.commitDecision, he, hvalue, hpending, hstay]

theorem Settled.commitDecisions_eq (h : p.Settled f) {cs : List Captured}
    (hcs : ∀ c ∈ cs, c ∈ p.captured) (stats : CompactionStats) :
    MemoryStore.commitDecisions (cs.map fun c => ⟨c, c.value⟩) p stats = (p, stats) := by
  induction cs with
  | nil => rfl
  | cons c cs ih =>
    obtain ⟨hhere, hothers⟩ := List.forall_mem_cons.1 hcs
    rw [List.map_cons, MemoryStore.commitDecisions, h.commitDecision_eq hhere]
    exact ih hothers

end Partition

/-! ### Passes -/

variable {f : PureFilter} {name : String} {p : Partition} {τ : Type} {w w' : τ}
  {stats : CompactionStats}

namespace MemoryStore

variable {s s' : MemoryStore}

/-- A pass that succeeds has decided about the partition and replaced it. -/
theorem compact_eq_ok
    (h : compact name (some f.toFilter) (s, w) = (.ok stats, s', w')) :
    ∃ p ds, s.partition name = .ok p ∧ PureFilter.decisions (some f) p.captured = .ok ds ∧
      s' = s.setPartition name (commitDecisions ds p (.visited ds.length)).1 := by
  cases hp : s.partition name with
  | error e =>
    rw [compact_of_capture_error (capture_run_of_error hp)] at h
    cases h
  | ok p =>
    have hrun := compact_run hp (some f) w
    cases hds : PureFilter.decisions (some f) p.captured with
    | error e =>
      rw [hds] at hrun
      cases hrun.symm.trans h
    | ok ds =>
      simp only [hds, commit_run hp] at hrun
      obtain ⟨-, rfl, -⟩ := Prod.mk.inj (hrun.symm.trans h)
      exact ⟨p, ds, rfl, hds, rfl⟩

/-- What such a pass leaves behind. -/
theorem settled_of_setPartition (hf : f.Settles) (hp : s.partition name = .ok p)
    {ds : List Decision} (hds : PureFilter.decisions (some f) p.captured = .ok ds) :
    ∃ p', (s.setPartition name (commitDecisions ds p (.visited ds.length)).1).partition name
        = .ok p' ∧ p'.Settled f :=
  ⟨_, partition_of_found (s := s.setPartition name _) (partition_eq_ok_iff.1 hp).1
    ((find?_setPartition ..).trans (if_pos rfl)), Partition.settled_of_decisions hf hds _⟩

/-- A pass with nothing left to do. -/
theorem compact_settled (hp : s.partition name = .ok p) (h : p.Settled f) (w : τ) :
    compact name (some f.toFilter) (s, w) = (.ok (.visited p.captured.length), s, w) := by
  have hrun := compact_run hp (some f) w
  simp only [h.decisions_eq fun _ hc => hc, commit_run hp, h.commitDecisions_eq fun _ hc => hc,
    setPartition_self hp, List.length_map] at hrun
  exact hrun

end MemoryStore

namespace LogStore

variable {s s' : LogStore}

/-- A pass with a pure filter decides about what is held in memory and commits. -/
theorem compact_run (hp : s.memory.partition name = .ok p) (filter : Option PureFilter) (w : τ) :
    AppendLists.compact name (filter.map PureFilter.toFilter) (s, w)
      = match PureFilter.decisions filter p.captured with
        | .error e => (.error e, s, w)
        | .ok ds => ((commit name ds s).1, (commit name ds s).2, w) := by
  have hdecide := PureFilter.decideAll_eq filter p.captured (s, w)
  cases hds : PureFilter.decisions filter p.captured with
  | error e =>
    rw [hds] at hdecide
    exact compact_of_decideAll_error (capture_run hp) hdecide
  | ok ds =>
    rw [hds] at hdecide
    exact compact_of_decideAll (capture_run hp) hdecide

/-- A checkpoint that succeeds leaves memory alone. -/
theorem memory_of_checkpoint (h : checkpoint s = (.ok (), s')) : s'.memory = s.memory := by
  simp only [checkpoint] at h
  split at h
  · cases h
  · cases h
    rfl

/-- A pass that succeeds has decided about the partition and replaced it in memory. -/
theorem compact_eq_ok
    (h : AppendLists.compact name (some f.toFilter) (s, w) = (.ok stats, s', w')) :
    ∃ p ds, s.memory.partition name = .ok p ∧ PureFilter.decisions (some f) p.captured = .ok ds ∧
      s'.memory = (s.committed name p ds).memory := by
  cases hp : s.memory.partition name with
  | error e =>
    rw [compact_of_capture_error (capture_run_of_error hp)] at h
    cases h
  | ok p =>
    have hrun := compact_run hp (some f) w
    cases hds : PureFilter.decisions (some f) p.captured with
    | error e =>
      rw [hds] at hrun
      cases hrun.symm.trans h
    | ok ds =>
      simp only [hds, commit_run hp] at hrun
      replace h := hrun.symm.trans h
      refine ⟨p, ds, rfl, hds, ?_⟩
      split at h
      · -- something was counted, so the log was written anew
        rcases hcheck : checkpoint (s.committed name p ds) with ⟨e | _, s₁⟩
        · rw [hcheck] at h
          cases h
        · rw [hcheck] at h
          obtain ⟨-, rfl, -⟩ := h
          exact memory_of_checkpoint hcheck
      · obtain ⟨-, rfl, -⟩ := h
        rfl

/-- A pass with nothing left to do writes no checkpoint. -/
theorem compact_settled (hp : s.memory.partition name = .ok p) (h : p.Settled f) (w : τ) :
    AppendLists.compact name (some f.toFilter) (s, w)
      = (.ok (.visited p.captured.length), s, w) := by
  have hrun := compact_run hp (some f) w
  -- -- nothing is left out and nothing rewritten, so the memory that is committed is the one there
  -- was
  have hsame : s.committed name p (p.captured.map fun c => ⟨c, c.value⟩) = s := by
    rw [committed, h.commitDecisions_eq fun _ hc => hc, MemoryStore.setPartition_self hp]
  simp only [h.decisions_eq fun _ hc => hc, commit_run hp, hsame,
    h.commitDecisions_eq fun _ hc => hc, List.length_map] at hrun
  exact hrun

end LogStore

/-! ### Passes over lists -/

/-- Transforming lists keeps what it has made. -/
theorem settles_transformPass (hc : codec.Conforming) (hfree : codec.PositionFree)
    (ht : t.Idempotent) : (transformPass codec t).Settles := by
  cases hstrategy : t.strategy with
  | transformAll => exact hc.settles_of_all hfree.forward hstrategy ht
  | stopOnFirstIncluded => exact hfree.settles_of_stop hstrategy

/-- **A second pass has nothing to do.** Whatever values and operands a memory store holds, if a pass
that transforms lists succeeds, then the same pass right behind it succeeds as well. It reports that
nothing was changed, removed, combined or left alone, and it leaves the store as it was. The same holds
of a log store with its log, which is not written anew. The codec has to conform and to decode by the
unread bytes alone, and the transformer has to keep what it has made of an element. -/
theorem transform_pass_converges (hc : codec.Conforming) (hfree : codec.PositionFree)
    (ht : t.Idempotent) (name : String) (w : τ) :
    (∀ (s s' : MemoryStore) stats w',
      compact name (some (transformPass codec t).toFilter) (s, w) = (.ok stats, s', w') →
        ∃ n, compact name (some (transformPass codec t).toFilter) (s', w')
          = (.ok { scanned := n, rewritten := 0, removed := 0, folded := 0, skipped := 0 },
              s', w')) ∧
    ∀ (s s' : LogStore) stats w',
      compact name (some (transformPass codec t).toFilter) (s, w) = (.ok stats, s', w') →
        ∃ n, compact name (some (transformPass codec t).toFilter) (s', w')
          = (.ok { scanned := n, rewritten := 0, removed := 0, folded := 0, skipped := 0 },
              s', w') := by
  have hsettles := settles_transformPass hc hfree ht
  constructor
  · intro s s' stats w' h
    obtain ⟨p, ds, hp, hds, rfl⟩ := MemoryStore.compact_eq_ok h
    obtain ⟨p', hp', hsettled⟩ := MemoryStore.settled_of_setPartition hsettles hp hds
    exact ⟨_, MemoryStore.compact_settled hp' hsettled w'⟩
  · intro s s' stats w' h
    obtain ⟨p, ds, hp, hds, hmemory⟩ := LogStore.compact_eq_ok h
    obtain ⟨p', hp', hsettled⟩ := MemoryStore.settled_of_setPartition hsettles hp hds
    exact ⟨_, LogStore.compact_settled (by rwa [hmemory]) hsettled w'⟩

/-- A list with a surplus delimiter, a list in two operands and a list of which nothing stays: the
first pass writes anew, combines and removes, the second one does nothing. -/
theorem transform_pass_converges_on_surplus_delimiter :
    let t : ElementTransformer Bytes :=
      ⟨fun x => if x = [7] then none else some [8], .transformAll⟩
    let filter : Option (Filter (MemoryStore × Unit)) :=
      some (transformPass Codec.bytes t).toFilter
    let s := Foreground.runAll
      [.change (.create "p" (some (.stringAppend delimiter))),
        .change (.put "p" [1] [1, 0, 0, 0, 7, delimiter, 1, 0, 0, 0, 9, delimiter]),
        .change (.merge "p" [2] [1, 0, 0, 0, 8]), .change (.merge "p" [2] [1, 0, 0, 0, 8]),
        .change (.put "p" [3] [1, 0, 0, 0, 7])] MemoryStore.empty
    let s' := (compact "p" filter (s, ())).2.1
    Codec.bytes.Conforming ∧ Codec.bytes.PositionFree ∧ t.Idempotent ∧
      compact "p" filter (s, ())
        = (.ok { scanned := 3, rewritten := 1, removed := 1, folded := 2, skipped := 0 }, s', ()) ∧
      ∃ n, compact "p" filter (s', ())
        = (.ok { scanned := n, rewritten := 0, removed := 0, folded := 0, skipped := 0 },
            s', ()) := by
  intro t filter s s'
  have ht : t.Idempotent := by
    intro x y hx
    show (if y = [7] then none else some [8]) = some y
    change (if x = [7] then none else some [8]) = some y at hx
    split at hx
    · cases hx
    · obtain rfl := Option.some.inj hx
      rfl
  have hreport : (compact "p" filter (s, ())).1 = .ok ⟨3, 1, 1, 2, 0⟩ := by cbv
  have hfirst : compact "p" filter (s, ()) = (.ok ⟨3, 1, 1, 2, 0⟩, s', ()) :=
    Prod.ext hreport rfl
  have hc := Codec.conforming_bytes
  have hfree := Codec.positionFree_bytes
  exact ⟨hc, hfree, ht, hfirst,
    (transform_pass_converges hc hfree ht "p" ()).1 s s' _ _ hfirst⟩

end AppendLists
