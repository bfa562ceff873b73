import AppendLists.Proofs.Memory.Interleaving

namespace AppendLists

/-!
# Passes that overlap each other

Two compaction passes over one partition may overlap, each with a pure filter. Both capture and commit
in one go, but between these steps of one pass those of the other may come. The commit of a pass gives
the entries it rewrites no new version, so a pass that captured before does not notice: it settles
them by what it made of the old values. Keys that were removed are noticed, and stay removed.

* `Turn`, `PassPair`, `PassPair.run`: two passes that take their steps in some order;
* `turns_cases`: one pass after the other, or captures before commits;
* `Contents.overlapped`: what two overlapping passes make of the contents, `contents_overlapped`;
* `Serial`, `serial_iff`: what they make of them one after the other;
* `Unaffected`, `Superseded`: when the order of the commits, or the other one, comes to the same;
* `Reachable.two_passes`: when the outcome is that of one after the other;
* `overlapping_pass_undoes_rewrite`: passes of which the last one brings an old value back.
-/

namespace MemoryStore

/-! ### Two passes step by step -/

/-- One of two passes. -/
inductive Turn where
  /-- The one. -/
  | first
  /-- The other. -/
  | second
deriving DecidableEq

/-- The other pass. -/
def Turn.other : Turn → Turn
  | .first => .second
  | .second => .first

@[simp] theorem Turn.other_other (t : Turn) : t.other.other = t := by cases t <;> rfl

@[simp] theorem Turn.other_ne (t : Turn) : t.other ≠ t := by cases t <;> decide

@[simp] theorem Turn.ne_other (t : Turn) : t ≠ t.other := by cases t <;> decide

/-- There are two turns. -/
theorem Turn.eq_or_eq_other (t u : Turn) : u = t ∨ u = t.other := by
  cases t <;> cases u <;> simp [other]

/-- How far a pass has come. -/
inductive Progress where
  /-- It has not begun. -/
  | waiting
  /-- It has captured. -/
  | captured (cs : List Captured)
  /-- It has answered. -/
  | done (outcome : Except StateError CompactionStats)

/-- A store and how far two passes over it have come. -/
structure PassPair where
  /-- The store. -/
  store : MemoryStore
  /-- The passes. -/
  progress : Turn → Progress

namespace PassPair

/-- Two passes that have not begun. -/
def start (s : MemoryStore) : PassPair := ⟨s, fun _ => .waiting⟩

/-- One of the passes has come further, and left the store as given. -/
def advance (w : PassPair) (t : Turn) (store : MemoryStore) (progress : Progress) : PassPair :=
  ⟨store, fun u => if u = t then progress else w.progress u⟩

/-- The next step of a pass: to capture, or else to decide and commit. The filter is pure, so it does
not matter when in between it decides. -/
def step (name : String) (filters : Turn → Option PureFilter) (t : Turn) (w : PassPair) :
    PassPair :=
  match w.progress t with
  | .waiting =>
    match (capture name w.store).1 with
    | .error e => w.advance t w.store (.done (.error e))
    | .ok cs => w.advance t w.store (.captured cs)
  | .captured cs =>
    match PureFilter.decisions (filters t) cs with
    | .error e => w.advance t w.store (.done (.error e))
    | .ok ds => w.advance t (commit name ds w.store).2 (.done (commit name ds w.store).1)
  | .done _ => w

/-- Steps in turn. -/
def run (name : String) (filters : Turn → Option PureFilter) : List Turn → PassPair → PassPair
  | [], w => w
  | t :: ts, w => run name filters ts (step name filters t w)

/-- Both passes have answered without an error. -/
def Succeeded (w : PassPair) : Prop := ∀ t, ∃ stats, w.progress t = .done (.ok stats)

variable {name : String} {filters : Turn → Option PureFilter} {w : PassPair} {t : Turn}
  {p : Partition}

@[simp] theorem store_advance (w : PassPair) (t : Turn) (store : MemoryStore) (p : Progress) :
    (w.advance t store p).store = store := rfl

/-- The progress of the other pass stays. -/
@[simp] theorem progress_advance (w : PassPair) (t u : Turn) (store : MemoryStore) (p : Progress) :
    (w.advance t store p).progress u = if u = t then p else w.progress u := rfl

/-- A pass that waits captures the partition. -/
theorem step_capture (hw : w.progress t = .waiting) (hp : w.store.partition name = .ok p) :
    step name filters t w = w.advance t w.store (.captured p.captured) := by
  simp only [step, hw, capture_run hp]

/-- It fails where there is none. -/
theorem step_capture_of_error {e : StorageError} (hw : w.progress t = .waiting)
    (hp : w.store.partition name = .error e) :
    step name filters t w
      = w.advance t w.store (.done (.error (.access .accessingStore e))) := by
  simp only [step, hw, capture_run_of_error hp]

/-- A pass that captured decides and commits. -/
theorem step_commit {cs : List Captured} {ds : List Decision} (hw : w.progress t = .captured cs)
    (hds : PureFilter.decisions (filters t) cs = .ok ds) (hp : w.store.partition name = .ok p) :
    step name filters t w
      = w.advance t (w.store.setPartition name (commitDecisions ds p (.visited ds.length)).1)
          (.done (.ok (commitDecisions ds p (.visited ds.length)).2)) := by
  simp only [step, hw, hds, commit_run hp]

/-- It fails if its filter does, and commits nothing. -/
theorem step_commit_of_error {cs : List Captured} {e : StateError}
    (hw : w.progress t = .captured cs) (hds : PureFilter.decisions (filters t) cs = .error e) :
    step name filters t w = w.advance t w.store (.done (.error e)) := by
  simp only [step, hw, hds]

/-- A step of one pass is no step of the other. -/
theorem progress_step_of_ne {u : Turn} (h : u ≠ t) :
    (step name filters t w).progress u = w.progress u := by
  unfold step
  repeat' split
  all_goals simp [h]

/-- A pass that has answered is over. -/
theorem progress_run_of_done {r : Except StateError CompactionStats} (h : w.progress t = .done r)
    (turns : List Turn) : (run name filters turns w).progress t = .done r := by
  induction turns generalizing w with
  | nil => exact h
  | cons u turns ih =>
    apply ih
    by_cases hu : t = u
    · subst hu
      simp only [step, h]
    · rw [progress_step_of_ne hu, h]

/-- A pass that failed at some point does not succeed later. -/
theorem not_succeeded_of_error {e : StateError} (h : w.progress t = .done (.error e))
    (turns : List Turn) : ¬ (run name filters turns w).Succeeded := by
  intro hsucceeded
  obtain ⟨stats, hdone⟩ := hsucceeded t
  rw [progress_run_of_done h] at hdone
  cases hdone

/-- Two steps of a pass with nothing in between are the pass. -/
theorem step_step (hw : w.progress t = .waiting) :
    step name filters t (step name filters t w)
      = w.advance t (compact name ((filters t).map PureFilter.toFilter) (w.store, ())).2.1
          (.done (compact name ((filters t).map PureFilter.toFilter) (w.store, ())).1) := by
  -- -- what a pass has come to replaces what it had come to
  have hadvance : ∀ store store' q q',
      (w.advance t store q).advance t store' q' = w.advance t store' q' := by
    intro store store' q q'
    simp only [advance, PassPair.mk.injEq, true_and]
    funext u
    by_cases hu : u = t <;> simp [hu]
  cases hp : w.store.partition name with
  | error e =>
    have hcapture : Store.capture name w.store = (.error (.access .accessingStore e), w.store) :=
      capture_run_of_error hp
    rw [step_capture_of_error hw hp, compact_of_capture_error hcapture, step]
    simp
  | ok p =>
    rw [step_capture hw hp, compact_run hp]
    have hcaptured : (w.advance t w.store (.captured p.captured)).progress t
        = .captured p.captured := by simp
    cases hds : PureFilter.decisions (filters t) p.captured with
    | error e =>
      rw [step_commit_of_error hcaptured hds, hadvance]
      rfl
    | ok ds =>
      have hp' : (w.advance t w.store (.captured p.captured)).store.partition name = .ok p := hp
      rw [step_commit hcaptured hds hp', hadvance]
      simp only [commit_run hp]
      rfl

end PassPair

open PassPair

/-- Whether the first two steps are of one pass. Then it ends before the other begins. -/
def Separate : List Turn → Prop
  | t :: u :: _ => t = u
  | _ => True

/-- Two passes of two steps each either follow each other, or both capture before one commits. -/
theorem turns_cases {turns : List Turn} (h : turns.Perm [.first, .first, .second, .second]) :
    (∃ t : Turn, turns = [t, t, t.other, t.other]) ∨
      ∃ t c : Turn, turns = [t, t.other, c, c.other] := by
  have hlength : turns.length = 4 := h.length_eq
  have hfirst : turns.count .first = 2 := h.count_eq .first
  match turns, hlength with
  | [t₁, t₂, t₃, t₄], _ =>
    revert hfirst
    cases t₁ <;> cases t₂ <;> cases t₃ <;> cases t₄ <;> simp [Turn.other]

/-! ### What overlapping passes make of the contents -/

end MemoryStore

/-- The contents after two passes that captured before either committed. The pass with `f` commits
first; what it keeps, the one with `g` settles as it stood before. -/
def Contents.overlapped (c : Contents) (name : String) (f g : Option PureFilter) : Contents where
  operator := c.operator
  value name' key :=
    if name' = name then
      (c.value name' key).bind fun value => (PureFilter.keep f value).bind fun _ =>
        PureFilter.keep g value
    else c.value name' key

/-- Two passes one after the other lead to those contents if they make the same of each value. -/
theorem Contents.pass_pass_eq_overlapped_iff {c : Contents} {name : String}
    {f₁ f₂ f g : Option PureFilter} :
    (c.pass name f₁).pass name f₂ = c.overlapped name f g
      ↔ ∀ key value, c.value name key = some value →
          (PureFilter.keep f₁ value).bind (PureFilter.keep f₂)
            = (PureFilter.keep f value).bind fun _ => PureFilter.keep g value := by
  constructor
  · intro heq key value hv
    have hkey := congrFun (congrFun (congrArg Contents.value heq) name) key
    simpa [pass, overlapped, hv] using hkey
  · intro hsame
    apply Contents.ext
    · rfl
    · funext name' key
      by_cases hname : name' = name
      · subst hname
        simp only [pass, overlapped, if_true, Option.bind_assoc]
        exact Option.bind_congr (hsame key)
      · simp only [pass, overlapped, if_neg hname]

/-- A key that either pass removes is not there afterwards. -/
theorem Contents.overlapped_of_removed {c : Contents} {name : String} {f g : Option PureFilter}
    {key value : Bytes} (hv : c.value name key = some value)
    (h : PureFilter.keep f value = none ∨ PureFilter.keep g value = none) :
    (c.overlapped name f g).value name key = none := by
  simp only [overlapped, if_pos, hv, Option.bind_some]
  rcases h with h | h
  · rw [h, Option.bind_none]
  · rw [h, Option.bind_fun_none]

namespace MemoryStore

open PassPair

variable {s : MemoryStore} {name : String} {p : Partition} {f g : Option PureFilter}
  {ds ds' : List Decision}

/-- What the filter keeps is what it decides, if it decides. -/
theorem keep_of_decide {value : Bytes} {outcome : Option Bytes}
    (h : PureFilter.decide f (some value) = .ok outcome) : PureFilter.keep f value = outcome := by
  rw [PureFilter.keep, h]

/-- What is decided about a captured value is what the filter keeps of it. -/
theorem keep_of_mem_decisions {cs : List Captured} {d : Decision} {value : Bytes}
    (hds : PureFilter.decisions f cs = .ok ds) (hd : d ∈ ds)
    (hvalue : d.captured.value = some value) : PureFilter.keep f value = d.outcome := by
  have hdecide := PureFilter.decide_of_mem_decisions hds hd
  rw [hvalue] at hdecide
  exact keep_of_decide hdecide

/-- A pure filter that decides about a partition decides about each of its values. -/
theorem decide_of_decisions (hp : s.partition name = .ok p)
    (hds : PureFilter.decisions f p.captured = .ok ds) {key value : Bytes}
    (hvalue : s.value? name key = some value) :
    PureFilter.decide f (some value) = .ok (PureFilter.keep f value) := by
  rw [value?_of_partition hp] at hvalue
  obtain ⟨c, hc, -, hcv⟩ := Partition.exists_captured hvalue
  rw [← PureFilter.captured_of_decisions hds] at hc
  obtain ⟨d, hd, rfl⟩ := List.mem_map.1 hc
  have hdecide := PureFilter.decide_of_mem_decisions hds hd
  rw [hcv] at hdecide
  rw [hdecide, keep_of_decide hdecide]

/-- The second commit finds the entries that the first one kept, with the versions they had. -/
theorem value?_commit_commit {next : Nat} (hs : p.Sound next)
    (hds : PureFilter.decisions f p.captured = .ok ds)
    (hds' : PureFilter.decisions g p.captured = .ok ds') (stats stats' : CompactionStats)
    (key : Bytes) :
    (commitDecisions ds' (commitDecisions ds p stats).1 stats').1.value? key
      = (p.value? key).bind fun value => (PureFilter.keep f value).bind fun _ =>
          PureFilter.keep g value := by
  have hcaptured := PureFilter.captured_of_decisions hds
  have hcaptured' := PureFilter.captured_of_decisions hds'
  cases hv : p.value? key with
  | none =>
    -- neither pass captured the key
    obtain ⟨hnone, hkey⟩ := Partition.not_mem_captured_of_none hs hcaptured hv
    obtain ⟨-, hkey'⟩ := Partition.not_mem_captured_of_none hs hcaptured' hv
    rw [Partition.value?, find?_commitDecisions_of_not_mem hkey',
      find?_commitDecisions_of_not_mem hkey, hnone]
    rfl
  | some value =>
    obtain ⟨c, hc, rfl, hcv⟩ := Partition.exists_captured hv
    obtain ⟨d, hd, hdc⟩ := List.mem_map.1 (hcaptured ▸ hc)
    obtain ⟨d', hd', hdc'⟩ := List.mem_map.1 (hcaptured' ▸ hc)
    have hfirst := Partition.find?_commitDecisions_of_unchanged hcaptured hd rfl stats
    have hsecond := find?_commitDecisions_of_mem (Partition.nodup_of_captured hcaptured') hd'
      (commitDecisions ds p stats).1 stats'
    rw [hdc] at hfirst
    rw [hdc', hfirst] at hsecond
    rw [Partition.value?, hsecond, Option.bind_some,
      keep_of_mem_decisions hds hd (by rw [hdc, hcv]),
      keep_of_mem_decisions hds' hd' (by rw [hdc', hcv])]
    -- the entry that the first commit kept still has the version that the second one captured
    cases d.outcome with
    | none => rfl
    | some value' =>
      rw [Option.map_some, Option.bind_some, Option.bind_some, Decision.settle,
        if_pos (by rw [hdc'])]
      cases d'.outcome <;> rfl

/-- Both commits together change the contents as the filters and the order of the commits say. -/
theorem contents_overlapped (hs : s.Sound) (hp : s.partition name = .ok p)
    (hds : PureFilter.decisions f p.captured = .ok ds)
    (hds' : PureFilter.decisions g p.captured = .ok ds') (stats stats' : CompactionStats) :
    ((s.setPartition name (commitDecisions ds p stats).1).setPartition name
        (commitDecisions ds' (commitDecisions ds p stats).1 stats').1).contents
      = s.contents.overlapped name f g := by
  have hfound := (partition_eq_ok_iff.1 hp).2
  have hfirst := contents_commitDecisions hs hp hds stats
  refine contents_setPartition_eq (by simp) (operator_commitDecisions ..) ?_ (fun key => ?_)
    fun other hother key => ?_
  · -- the first commit has filtered the contents, which is nothing to the ways of merging
    rw [hfirst]
    rfl
  · simp [Contents.overlapped, contents, value?, hfound,
      value?_commit_commit (hs.of_partition hp) hds hds']
  · simp [Contents.overlapped, contents, value?, hother]

/-! ### One pass after the other -/

/-- The pass with `f` and then the pass with `g` succeed and lead to the contents `c`. -/
def Serial (name : String) (f g : Option PureFilter) (s : MemoryStore) (c : Contents) : Prop :=
  ∃ stats s₁ stats' s₂,
    compact name (f.map PureFilter.toFilter) (s, ()) = (.ok stats, s₁, ()) ∧
      compact name (g.map PureFilter.toFilter) (s₁, ()) = (.ok stats', s₂, ()) ∧ s₂.contents = c

/-- A pure filter decides about a partition if it decides about each of its values. -/
theorem decisions_isOk_iff (hs : s.Sound) (hp : s.partition name = .ok p) :
    (∃ ds, PureFilter.decisions f p.captured = .ok ds)
      ↔ ∀ key value, s.value? name key = some value →
          ∃ outcome, PureFilter.decide f (some value) = .ok outcome := by
  constructor
  · rintro ⟨ds, hds⟩ key value hvalue
    exact ⟨_, decide_of_decisions hp hds hvalue⟩
  · intro h
    apply PureFilter.decisions_isOk
    intro c hc
    obtain ⟨e, he, -⟩ := Partition.mem_captured_iff.1 hc
    obtain ⟨value, hvalue⟩ : ∃ value, p.value? c.key = some value := by
      apply Option.isSome_iff_exists.1
      rw [(hs.of_partition hp).value?_isSome, he]
      rfl
    rw [Partition.value_of_mem_captured hc, hvalue]
    exact h c.key value (by rw [value?_of_partition hp, hvalue])

/-- A pass succeeds if its filter decides about each value that is there, and filters the contents. -/
theorem compact_eq_ok_iff (hs : s.Sound) (hp : s.partition name = .ok p) {c : Contents} :
    (∃ stats u, compact name (f.map PureFilter.toFilter) (s, ()) = (.ok stats, u, ()) ∧
        u.contents = c)
      ↔ (∀ key value, s.value? name key = some value →
          ∃ outcome, PureFilter.decide f (some value) = .ok outcome) ∧
        s.contents.pass name f = c := by
  rw [← decisions_isOk_iff hs hp]
  have hopen := (partition_eq_ok_iff.1 hp).1
  constructor
  · rintro ⟨stats, u, hrun, rfl⟩
    -- a filter that fails at one value fails the pass
    cases hds : PureFilter.decisions f p.captured with
    | error e =>
      rw [compact_run hp, hds] at hrun
      cases hrun
    | ok ds =>
      obtain ⟨stats', u', hrun', hcontents, -⟩ := compact_of_decisions hs hp hs hopen rfl hds ()
      obtain rfl : u' = u := (Prod.mk.inj (Prod.mk.inj (hrun'.symm.trans hrun)).2).1
      exact ⟨⟨ds, rfl⟩, hcontents.symm⟩
  · rintro ⟨⟨ds, hds⟩, rfl⟩
    obtain ⟨stats, u, hrun, hcontents, -⟩ := compact_of_decisions hs hp hs hopen rfl hds ()
    exact ⟨stats, u, hrun, hcontents⟩

/-- Behind a pass that succeeds another one does if its filter decides about what the first keeps, and
then both filters apply one after the other. -/
theorem serial_iff (hs : s.Sound) (hp : s.partition name = .ok p)
    (hds : PureFilter.decisions f p.captured = .ok ds) {c : Contents} :
    Serial name f g s c
      ↔ (∀ key value value', s.value? name key = some value →
          PureFilter.decide f (some value) = .ok (some value') →
            ∃ outcome, PureFilter.decide g (some value') = .ok outcome) ∧
        (s.contents.pass name f).pass name g = c := by
  obtain ⟨stats, s₁, hfirst, hcontents, hs₁, hopened⟩ :=
    compact_of_decisions hs hp hs (partition_eq_ok_iff.1 hp).1 rfl hds ()
  have hsecond : Serial name f g s c ↔ ∃ stats' s₂,
      compact name (g.map PureFilter.toFilter) (s₁, ()) = (.ok stats', s₂, ()) ∧
        s₂.contents = c := by
    constructor
    · rintro ⟨_, u, stats', s₂, hfirst', hsecond, hc⟩
      obtain rfl : s₁ = u := (Prod.mk.inj (Prod.mk.inj (hfirst.symm.trans hfirst')).2).1
      exact ⟨stats', s₂, hsecond, hc⟩
    · rintro ⟨stats', s₂, hsecond, hc⟩
      exact ⟨stats, s₁, stats', s₂, hfirst, hsecond, hc⟩
  -- the second pass finds the partition with the values that the first one kept
  have hop := congrFun (congrArg Contents.operator hcontents) name
  simp only [Contents.pass, contents, (partition_eq_ok_iff.1 hp).2, Option.map_some] at hop
  obtain ⟨q, hfound, -⟩ := Option.map_eq_some_iff.1 hop
  have hkept : ∀ key value', s₁.value? name key = some value' ↔
      ∃ value, s.value? name key = some value ∧
        PureFilter.decide f (some value) = .ok (some value') := by
    intro key value'
    have hvalue := congrFun (congrFun (congrArg Contents.value hcontents) name) key
    simp only [Contents.pass, if_true] at hvalue
    rw [show s₁.value? name key = (s.value? name key).bind (PureFilter.keep f) from hvalue,
      Option.bind_eq_some_iff]
    apply exists_congr
    intro value
    apply and_congr_right
    intro hvalue
    rw [decide_of_decisions hp hds hvalue, Except.ok.injEq]
  rw [hsecond, compact_eq_ok_iff hs₁ (partition_of_found hopened hfound), hcontents]
  apply and_congr_left
  intro _
  constructor
  · intro h key value value' hvalue hdecide
    exact h key value' ((hkept key value').2 ⟨value, hvalue, hdecide⟩)
  · intro h key value' hvalue'
    obtain ⟨value, hvalue, hdecide⟩ := (hkept key value').1 hvalue'
    exact h key value value' hvalue hdecide

/-- The pass with `g` decides about what the pass with `f` keeps as about what was there before. -/
def Unaffected (name : String) (f g : Option PureFilter) (s : MemoryStore) : Prop :=
  ∀ key value value', s.value? name key = some value →
    PureFilter.decide f (some value) = .ok (some value') →
      PureFilter.decide g (some value') = PureFilter.decide g (some value)

/-- The pass with `f` removes of what the pass with `g` keeps just what it would have removed before,
and rewrites none of it. -/
def Superseded (name : String) (f g : Option PureFilter) (s : MemoryStore) : Prop :=
  ∀ key value value', s.value? name key = some value →
    PureFilter.decide g (some value) = .ok (some value') →
      PureFilter.decide f (some value')
        = (PureFilter.decide f (some value)).map (Option.map fun _ => value')

/-- The order of the commits leads to the same contents if the later pass does not depend on what the
earlier one rewrites. -/
theorem serial_overlapped_iff (hs : s.Sound) (hp : s.partition name = .ok p)
    (hds : PureFilter.decisions f p.captured = .ok ds)
    (hds' : PureFilter.decisions g p.captured = .ok ds') :
    Serial name f g s (s.contents.overlapped name f g) ↔ Unaffected name f g s := by
  rw [serial_iff hs hp hds, Contents.pass_pass_eq_overlapped_iff]
  constructor
  · rintro ⟨hdecides, hsame⟩ key value value' hvalue hdecide
    obtain ⟨outcome, houtcome⟩ := hdecides key value value' hvalue hdecide
    have hkeep := hsame key value hvalue
    rw [keep_of_decide hdecide, Option.bind_some, Option.bind_some, keep_of_decide houtcome] at hkeep
    rw [houtcome, hkeep, decide_of_decisions hp hds' hvalue]
  · intro h
    constructor
    · intro key value value' hvalue hdecide
      exact ⟨_, (h key value value' hvalue hdecide).trans (decide_of_decisions hp hds' hvalue)⟩
    · intro key value hvalue
      cases hkeep : PureFilter.keep f value with
      | none => rfl
      | some value' =>
        -- what the earlier one keeps, the later one decides about as it did
        have hdecide := decide_of_decisions hp hds hvalue
        rw [hkeep] at hdecide
        have hsame := h key value value' hvalue hdecide
        rw [Option.bind_some, Option.bind_some, PureFilter.keep, hsame, PureFilter.keep]

/-- The other order leads to the same contents if the earlier pass has nothing to rewrite of what the
later one keeps. -/
theorem serial_swap_overlapped_iff (hs : s.Sound) (hp : s.partition name = .ok p)
    (hds : PureFilter.decisions f p.captured = .ok ds)
    (hds' : PureFilter.decisions g p.captured = .ok ds') :
    Serial name g f s (s.contents.overlapped name f g) ↔ Superseded name f g s := by
  rw [serial_iff hs hp hds', Contents.pass_pass_eq_overlapped_iff]
  constructor
  · rintro ⟨hdecides, hsame⟩ key value value' hvalue hdecide
    obtain ⟨outcome, houtcome⟩ := hdecides key value value' hvalue hdecide
    have hkeep := hsame key value hvalue
    rw [keep_of_decide hdecide, Option.bind_some, keep_of_decide houtcome] at hkeep
    rw [houtcome, hkeep, decide_of_decisions hp hds hvalue]
    cases PureFilter.keep f value <;> rfl
  · intro h
    have hoverwritten : ∀ {key value value'}, s.value? name key = some value →
        PureFilter.decide g (some value) = .ok (some value') →
          PureFilter.decide f (some value')
            = .ok ((PureFilter.keep f value).map fun _ => value') := by
      intro key value value' hvalue hdecide
      rw [h key value value' hvalue hdecide, decide_of_decisions hp hds hvalue]
      rfl
    constructor
    · intro key value value' hvalue hdecide
      exact ⟨_, hoverwritten hvalue hdecide⟩
    · intro key value hvalue
      have hdecide := decide_of_decisions hp hds' hvalue
      cases hkeep : PureFilter.keep g value with
      | none => rw [Option.bind_none, Option.bind_fun_none]
      | some value' =>
        rw [hkeep] at hdecide
        rw [Option.bind_some, keep_of_decide (hoverwritten hvalue hdecide)]
        cases PureFilter.keep f value <;> rfl

/-! ### The outcome of two passes -/

variable {filters : Turn → Option PureFilter} {t c : Turn}

/-- A pass that begins and ends before the other begins is one of two in a row. -/
theorem serial_run (hok : (run name filters [t, t, t.other, t.other] (start s)).Succeeded) :
    Serial name (filters t) (filters t.other) s
      (run name filters [t, t, t.other, t.other] (start s)).store.contents := by
  simp only [run] at hok ⊢
  rw [step_step (t := t) rfl] at hok ⊢
  rcases hfirst : compact name ((filters t).map PureFilter.toFilter) (s, ()) with ⟨r, s₁, _⟩
  simp only [start, hfirst] at hok ⊢
  rw [step_step (by simp)] at hok ⊢
  simp only [store_advance] at hok ⊢
  rcases hsecond : compact name ((filters t.other).map PureFilter.toFilter) (s₁, ())
    with ⟨r', s₂, _⟩
  obtain ⟨stats, hstats⟩ := hok t
  obtain ⟨stats', hstats'⟩ := hok t.other
  simp only [hsecond, progress_advance, Turn.ne_other, if_false, if_true, Progress.done.injEq]
    at hstats hstats'
  subst hstats hstats'
  exact ⟨stats, s₁, stats', s₂, hfirst, hsecond, rfl⟩

/-- Passes that capture one right after the other capture the same. -/
theorem captured_by_both (filters : Turn → Option PureFilter) (hp : s.partition name = .ok p)
    (t : Turn) :
    ∃ w, step name filters t.other (step name filters t (start s)) = w ∧ w.store = s ∧
      ∀ u, w.progress u = .captured p.captured := by
  rw [step_capture (w := start s) rfl hp, step_capture (by simp [start]) (by simpa [start] using hp)]
  refine ⟨_, rfl, rfl, ?_⟩
  intro u
  cases t <;> cases u <;> rfl

/-- Passes that captured the same decide about it and commit in turn. -/
theorem run_commits {w : PassPair} (hp : w.store.partition name = .ok p)
    (hprogress : ∀ u, w.progress u = .captured p.captured)
    (hok : (run name filters [c, c.other] w).Succeeded) :
    ∃ ds ds' stats stats', PureFilter.decisions (filters c) p.captured = .ok ds ∧
      PureFilter.decisions (filters c.other) p.captured = .ok ds' ∧
      (run name filters [c, c.other] w).store
        = (w.store.setPartition name (commitDecisions ds p stats).1).setPartition name
            (commitDecisions ds' (commitDecisions ds p stats).1 stats').1 := by
  rw [run] at hok ⊢
  cases hds : PureFilter.decisions (filters c) p.captured with
  | error e =>
    rw [step_commit_of_error (hprogress c) hds] at hok
    exact absurd hok (not_succeeded_of_error (t := c) (if_pos rfl) _)
  | ok ds =>
    rw [step_commit (hprogress c) hds hp] at hok ⊢
    rw [run] at hok ⊢
    -- the second commit finds the partition as the first one left it
    generalize hw' : w.advance c _ _ = w' at hok ⊢
    have hprogress' : w'.progress c.other = .captured p.captured := by
      rw [← hw', progress_advance, if_neg c.other_ne, hprogress]
    have hp' : w'.store.partition name = .ok (commitDecisions ds p (.visited ds.length)).1 := by
      obtain ⟨hopen, -⟩ := partition_eq_ok_iff.1 hp
      rw [← hw', store_advance]
      exact partition_of_found hopen (by simp)
    cases hds' : PureFilter.decisions (filters c.other) p.captured with
    | error e =>
      rw [step_commit_of_error hprogress' hds'] at hok
      exact absurd hok (not_succeeded_of_error (t := c.other) (if_pos rfl) _)
    | ok ds' =>
      rw [step_commit hprogress' hds' hp', run, store_advance, ← hw', store_advance]
      exact ⟨ds, ds', _, _, rfl, rfl, rfl⟩

/-- Passes that both capture before one commits lead to the contents that the order of the commits
says. -/
theorem run_overlapping (hs : s.Sound)
    (hok : (run name filters [t, t.other, c, c.other] (start s)).Succeeded) :
    ∃ p ds ds', s.partition name = .ok p ∧
      PureFilter.decisions (filters c) p.captured = .ok ds ∧
      PureFilter.decisions (filters c.other) p.captured = .ok ds' ∧
      (run name filters [t, t.other, c, c.other] (start s)).store.contents
        = s.contents.overlapped name (filters c) (filters c.other) := by
  cases hp : s.partition name with
  | error e =>
    rw [run, step_capture_of_error (w := start s) rfl hp] at hok
    exact absurd hok (not_succeeded_of_error (t := t) (if_pos rfl) _)
  | ok p =>
    obtain ⟨w, hw, rfl, hprogress⟩ := captured_by_both filters hp t
    rw [run, run, hw] at hok ⊢
    obtain ⟨ds, ds', stats, stats', hds, hds', hstore⟩ := run_commits hp hprogress hok
    rw [hstore]
    exact ⟨p, ds, ds', rfl, hds, hds', contents_overlapped hs hp hds hds' stats stats'⟩

/-- **Two passes at once.** They come out as one after the other if one ends before the other begins.
If both capture before one commits, then the one that commits last settles what it captured, whatever
the other one rewrote, so they come out as one after the other only if that makes no difference; a key
that either of them removes stays removed. -/
theorem Reachable.two_passes (hs : s.Reachable) (name : String)
    (filters : Turn → Option PureFilter) {turns : List Turn}
    (hturns : turns.Perm [.first, .first, .second, .second])
    (hok : (run name filters turns (start s)).Succeeded) :
    ((∃ t, Serial name (filters t) (filters t.other) s
          (run name filters turns (start s)).store.contents)
        ↔ Separate turns ∨ ∃ t ∈ turns.getLast?,
            Unaffected name (filters t.other) (filters t) s ∨
              Superseded name (filters t.other) (filters t) s) ∧
      (¬ Separate turns →
        (∀ t ∈ turns.getLast?, (run name filters turns (start s)).store.contents
          = s.contents.overlapped name (filters t.other) (filters t)) ∧
        ∀ t key value, s.value? name key = some value →
          PureFilter.decide (filters t) (some value) = .ok none →
            (run name filters turns (start s)).store.value? name key = none) := by
  rcases turns_cases hturns with ⟨t, rfl⟩ | ⟨t, c, rfl⟩
  · -- one after the other: the first one has nothing to overlap with
    have hserial := serial_run hok
    exact ⟨iff_of_true ⟨t, hserial⟩ (.inl rfl), fun hseparate => absurd rfl hseparate⟩
  · -- both capture before either commits, so `c` commits first and `c.other` last
    have hseparate : ¬ Separate [t, t.other, c, c.other] := t.ne_other
    have hlast : ∀ P : Turn → Prop,
        (∃ u ∈ [t, t.other, c, c.other].getLast?, P u) ↔ P c.other := by simp
    obtain ⟨p, ds, ds', hp, hds, hds', hcontents⟩ := run_overlapping hs.sound hok
    constructor
    · -- either order of the two leads to the same contents, or neither does
      rw [hlast, c.other_other, hcontents, or_iff_right hseparate,
        ← serial_overlapped_iff hs.sound hp hds hds',
        ← serial_swap_overlapped_iff hs.sound hp hds hds']
      constructor
      · rintro ⟨u, hu⟩
        rcases c.eq_or_eq_other u with rfl | rfl
        · exact .inl hu
        · rw [c.other_other] at hu
          exact .inr hu
      · rintro (h | h)
        · exact ⟨c, h⟩
        · exact ⟨c.other, by rwa [c.other_other]⟩
    · intro _
      constructor
      · intro u hu
        obtain rfl : c.other = u := by simpa using hu
        rw [hcontents, c.other_other]
      · -- a key that the first one removed has no entry for the last one to settle
        intro u key value hvalue hremoved
        have hkeep := keep_of_decide hremoved
        have hnone := Contents.overlapped_of_removed (f := filters c) (g := filters c.other)
          (c := s.contents) hvalue (by
            rcases c.eq_or_eq_other u with rfl | rfl
            · exact .inl hkeep
            · exact .inr hkeep)
        rw [← hcontents] at hnone
        exact hnone

/-- A pass without a filter captures, a pass that doubles the bytes of every value comes and goes, and
the first one commits: it brings the old value back, which neither order of the two would leave. -/
theorem overlapping_pass_undoes_rewrite :
    let s := Foreground.runAll
      [.change (.create "p" (some (.stringAppend 0x2C))),
        .change (.put "p" [1] [0, 0, 0, 0, 0, 0, 0, 1])] MemoryStore.empty
    let double : PureFilter := ⟨"double", fun value => .ok (value.map (List.map (2 * ·)))⟩
    let filters : Turn → Option PureFilter := fun t => if t = .first then none else some double
    let turns : List Turn := [.first, .second, .second, .first]
    s.Reachable ∧ (run "p" filters turns (start s)).Succeeded ∧ ¬ Separate turns ∧
      (get "p" [1] (run "p" filters turns (start s)).store).1
        = .ok (some [0, 0, 0, 0, 0, 0, 0, 1]) ∧
      ¬ ∃ t, Serial "p" (filters t) (filters t.other) s
          (run "p" filters turns (start s)).store.contents := by
  intro s double filters turns
  have hs : s.Reachable := Reachable.empty.runAll _
  have hturns : turns.Perm [.first, .first, .second, .second] := by decide
  have hok : (run "p" filters turns (start s)).Succeeded := by
    intro t
    cases t with
    | first => exact ⟨⟨1, 0, 0, 0, 0⟩, rfl⟩
    | second => exact ⟨⟨1, 1, 0, 0, 0⟩, rfl⟩
  have hseparate : ¬ Separate turns := Turn.ne_other .first
  have hvalue : s.value? "p" [1] = some [0, 0, 0, 0, 0, 0, 0, 1] := rfl
  obtain ⟨hserial, -⟩ := hs.two_passes "p" filters hturns hok
  refine ⟨hs, hok, hseparate, rfl, ?_⟩
  rw [hserial]
  rintro (h | ⟨t, ht, h | h⟩)
  · exact hseparate h
  · -- the last pass would have decided otherwise about the doubled value
    obtain rfl : Turn.first = t := by simpa [turns] using ht
    have hsame := Option.some.inj (Except.ok.inj (h [1] _ _ hvalue rfl))
    revert hsame
    decide
  · -- the doubling pass would have doubled the value that the last one keeps
    obtain rfl : Turn.first = t := by simpa [turns] using ht
    have hsame := Option.some.inj (Except.ok.inj (h [1] _ _ hvalue rfl))
    revert hsame
    decide

end MemoryStore

end AppendLists
