import Mathlib.Data.List.Basic
import AppendLists.Proofs.Memory.Interleaving
import AppendLists.Proofs.Store.LikeMemory
import AppendLists.State.List

namespace AppendLists

/-!
# Values moved behind another

A move takes the value of a source out of its place and appends it to that of the target. Whatever
stands in the list of sources, every value is moved once: a source that comes again is empty by then,
and a source that is the target gets back what was taken from it.

* `Contents.movable`, `Contents.move`, `Contents.moveAll`: the moves on contents;
* `Contents.moveAll_without_target`, `value_moveAll`, `value_moveAll_elsewhere`,
  `value_moveAll_target`: what is where after several moves;
* `carryValue`, `moveValue_of_get`: one move taken apart; `ListState.mergeNamespaces_run`: the moves
  of a handle;
* `LikeMemory.moveValue_ok`, `moveValues_ok`: the calls do this, on every store that is like a
  memory store;
* `MemoryStore.moveValues_gathers`: moves on a memory store whose partition appends.
-/

/-! ### Distinct elements in order -/

/-- Dropping repetitions and picking elements can be done in either order. -/
theorem eraseDups_filter {α : Type} [BEq α] [LawfulBEq α] (test : α → Bool) :
    ∀ xs : List α, (xs.filter test).eraseDups = xs.eraseDups.filter test
  | [] => rfl
  | x :: xs => by
    have ih := eraseDups_filter test (xs.filter fun y => !y == x)
    rw [List.eraseDups_cons]
    by_cases hx : test x = true
    · rw [List.filter_cons_of_pos hx, List.filter_cons_of_pos hx, List.eraseDups_cons, ← ih,
        List.filter_filter, List.filter_filter]
      simp only [Bool.and_comm]
    · rw [List.filter_cons_of_neg hx, List.filter_cons_of_neg hx, ← ih, List.filter_filter]
      -- an element that is picked is not the one that was left out
      have hsame : ∀ y ∈ xs, (test y && !y == x) = test y := by
        intro y _
        by_cases hy : y = x
        · subst hy
          simp [hx]
        · simp [hy]
      rw [List.filter_congr hsame]
termination_by xs => xs.length
decreasing_by exact Nat.lt_succ_of_le (List.length_filter_le ..)

theorem eraseDups_of_nodup {α : Type} [BEq α] [LawfulBEq α] {xs : List α} (h : xs.Nodup) :
    xs.eraseDups = xs := by
  induction xs with
  | nil => rfl
  | cons x xs ih =>
    obtain ⟨hx, hxs⟩ := List.nodup_cons.1 h
    have hrest : (xs.filter fun y => !y == x) = xs :=
      List.filter_eq_self.2 fun y hy => by
        have hne : y ≠ x := fun heq => hx (heq ▸ hy)
        simp [hne]
    rw [List.eraseDups_cons, hrest, ih hxs]

/-- An element that contributes nothing may as well not be there. -/
theorem filterMap_eraseDups_filter {α β : Type} [BEq α] [LawfulBEq α] {f : α → Option β} {x : α}
    (hx : f x = none) (xs : List α) :
    (xs.filter fun y => !y == x).eraseDups.filterMap f = xs.eraseDups.filterMap f := by
  rw [eraseDups_filter, List.filterMap_filter]
  congr 1
  funext y
  by_cases hy : y = x <;> simp [hy, hx]

/-! ### Moves on contents -/

/-- An existing value, if there is one, with others appended. -/
def MergeOperator.appended (op : MergeOperator) (existing : Option Bytes) :
    List Bytes → Option Bytes
  | [] => existing
  | values => some (op.fullMerge existing values)

/-- Values are appended one after the other. -/
theorem MergeOperator.appended_cons (op : MergeOperator) (existing : Option Bytes) (v : Bytes)
    (vs : List Bytes) :
    op.appended existing (v :: vs) = op.appended (some (op.fullMerge existing [v])) vs := by
  cases vs with
  | nil => rfl
  | cons w ws =>
    have hne : existing.toList ++ [v] ≠ [] := by simp
    exact congrArg some (op.fullMerge_append existing hne)

namespace Contents

variable {c : Contents} {name : String} {target source : Bytes} {sources : List Bytes}
  {op : MergeOperator}

/-- What a move takes from a key: its value, unless that is empty. -/
def movable (c : Contents) (name : String) (key : Bytes) : Option Bytes :=
  (c.value name key).filter (· ≠ [])

/-- The contents after the value of one source was moved. -/
def move (c : Contents) (name : String) (target source : Bytes) : Contents :=
  match c.movable name source with
  | none => c
  | some value =>
    let taken := c.setValue name source none
    taken.setValue name target
      ((c.operator name).join.map fun op => op.fullMerge (taken.value name target) [value])

/-- The contents after the values of several sources were moved in turn. -/
def moveAll (c : Contents) (name : String) (target : Bytes) : List Bytes → Contents
  | [] => c
  | source :: sources => (c.move name target source).moveAll name target sources

/-- A source has something to move if it has a value that is not empty. -/
theorem movable_eq_some_iff {key value : Bytes} :
    c.movable name key = some value ↔ c.value name key = some value ∧ value ≠ [] := by
  simp [movable, Option.filter_eq_some_iff]

/-- Whether it does depends on its value alone. -/
theorem movable_congr {c' : Contents} {key : Bytes} (h : c'.value name key = c.value name key) :
    c'.movable name key = c.movable name key := by
  rw [movable, h, movable]

/-- A source without a value has nothing to move. -/
theorem movable_of_value_none {key : Bytes} (h : c.value name key = none) :
    c.movable name key = none := by
  rw [movable, h]
  rfl

/-- Where there is nothing to move, nothing changes. -/
theorem move_of_not_movable (h : c.movable name source = none) : c.move name target source = c := by
  simp only [move, h]

/-- Otherwise the source is cleared, and then its value is merged into the target. -/
theorem move_of_movable {value : Bytes} (h : c.movable name source = some value) :
    c.move name target source
      = (c.setValue name source none).setValue name target
          ((c.operator name).join.map fun op =>
            op.fullMerge ((c.setValue name source none).value name target) [value]) := by
  simp only [move, h]

/-- Moving does not change the way of merging. -/
@[simp] theorem operator_move (c : Contents) (name : String) (target source : Bytes) :
    (c.move name target source).operator = c.operator := by
  unfold move
  split <;> rfl

@[simp] theorem operator_moveAll (c : Contents) (name : String) (target : Bytes)
    (sources : List Bytes) : (c.moveAll name target sources).operator = c.operator := by
  induction sources generalizing c with
  | nil => rfl
  | cons source sources ih => rw [moveAll, ih, operator_move]

/-- What is taken from the target comes back to it. -/
theorem move_target (hop : c.operator name = some (some op)) : c.move name target target = c := by
  cases h : c.movable name target with
  | none => exact move_of_not_movable h
  | some value =>
    rw [move_of_movable h, setValue_setValue, value_setValue_self, hop]
    exact setValue_self (movable_eq_some_iff.1 h).1

/-- The target makes no difference among the sources. -/
theorem moveAll_without_target (hop : c.operator name = some (some op)) (target : Bytes)
    (sources : List Bytes) :
    c.moveAll name target sources = c.moveAll name target (sources.filter (· ≠ target)) := by
  induction sources generalizing c with
  | nil => rfl
  | cons source sources ih =>
    by_cases hsource : source = target
    · rw [List.filter_cons_of_neg (by simp [hsource]), moveAll, hsource, move_target hop, ih hop]
    · rw [List.filter_cons_of_pos (by simp [hsource]), moveAll, moveAll,
        ih (by rw [operator_move, hop])]

/-! ### What is where after a move -/

/-- A move changes its source and its target only. -/
theorem value_move_of_other {name' : String} {key : Bytes}
    (h : name' = name → key ≠ target ∧ key ≠ source) :
    (c.move name target source).value name' key = c.value name' key := by
  unfold move
  split
  · rfl
  · rw [value_setValue, if_neg fun ⟨hname, hkey⟩ => (h hname).1 hkey, value_setValue,
      if_neg fun ⟨hname, hkey⟩ => (h hname).2 hkey]

/-- A source that was moved is gone, unless it is the target. -/
theorem value_move_source {value : Bytes} (h : c.movable name source = some value)
    (hne : source ≠ target) : (c.move name target source).value name source = none := by
  rw [move_of_movable h, value_setValue_of_ne hne, value_setValue_self]

/-- The target has the value of the source appended. -/
theorem value_move_target {value : Bytes} (h : c.movable name source = some value)
    (hne : source ≠ target) :
    (c.move name target source).value name target
      = (c.operator name).join.map fun op => op.fullMerge (c.value name target) [value] := by
  rw [move_of_movable h, value_setValue_self, value_setValue_of_ne hne.symm]

/-- Other partitions keep their values. -/
theorem value_moveAll_of_ne {name' : String} (h : name' ≠ name) (key : Bytes) :
    (c.moveAll name target sources).value name' key = c.value name' key := by
  induction sources generalizing c with
  | nil => rfl
  | cons source sources ih =>
    rw [moveAll, ih, value_move_of_other fun heq => absurd heq h]

/-- Sources without anything to move change nothing. -/
theorem moveAll_of_not_movable (h : ∀ key ∈ sources, c.movable name key = none) :
    c.moveAll name target sources = c := by
  induction sources with
  | nil => rfl
  | cons source sources ih =>
    obtain ⟨hsource, hsources⟩ := List.forall_mem_cons.1 h
    rw [moveAll, move_of_not_movable hsource, ih hsources]

/-- A key with nothing to take keeps what it has. -/
theorem value_moveAll_of_not_movable {key : Bytes} (hkey : key ≠ target)
    (h : c.movable name key = none) :
    (c.moveAll name target sources).value name key = c.value name key := by
  induction sources generalizing c with
  | nil => rfl
  | cons source sources ih =>
    have hsame : (c.move name target source).value name key = c.value name key := by
      by_cases hsource : source = key
      · rw [hsource, move_of_not_movable h]
      · exact value_move_of_other fun _ => ⟨hkey, fun heq => hsource heq.symm⟩
    rw [moveAll, ih ((movable_congr hsame).trans h), hsame]

/-- Sources with something to take are gone, and no other key is. -/
theorem value_moveAll {key : Bytes} (hkey : key ≠ target) :
    (c.moveAll name target sources).value name key
      = if key ∈ sources ∧ (c.movable name key).isSome then none else c.value name key := by
  induction sources generalizing c with
  | nil => rw [if_neg fun h => List.not_mem_nil h.1]; rfl
  | cons source sources ih =>
    rw [moveAll]
    by_cases hsource : key = source
    · subst hsource
      cases h : c.movable name key with
      | none =>
        rw [move_of_not_movable h, value_moveAll_of_not_movable hkey h, if_neg (by simp)]
      | some value =>
        -- the key is absent from here on, whether it comes again or not
        have hgone : (c.move name target key).value name key = none := value_move_source h hkey
        rw [value_moveAll_of_not_movable hkey (movable_of_value_none hgone), hgone,
          if_pos ⟨List.mem_cons_self, rfl⟩]
    · have hsame : (c.move name target source).value name key = c.value name key :=
        value_move_of_other fun _ => ⟨hkey, hsource⟩
      rw [ih, movable_congr hsame, hsame]
      simp only [List.mem_cons, hsource, false_or]

/-- Nothing else has changed. -/
theorem value_moveAll_elsewhere {name' : String} {key : Bytes}
    (h : name' = name → key ≠ target ∧ ¬ (key ∈ sources ∧ (c.movable name key).isSome)) :
    (c.moveAll name target sources).value name' key = c.value name' key := by
  by_cases hname : name' = name
  · subst hname
    obtain ⟨hne, hkey⟩ := h rfl
    rw [value_moveAll hne, if_neg hkey]
  · exact value_moveAll_of_ne hname key

/-- The target has what the distinct sources had, in the order in which they come first. -/
theorem value_moveAll_target (hop : c.operator name = some (some op)) (htarget : target ∉ sources) :
    (c.moveAll name target sources).value name target
      = op.appended (c.value name target) (sources.eraseDups.filterMap (c.movable name)) := by
  induction sources generalizing c with
  | nil => rfl
  | cons source sources ih =>
    have hne : source ≠ target := fun heq => htarget (heq ▸ List.mem_cons_self)
    have hrest : target ∉ sources := fun hmem => htarget (List.mem_cons_of_mem _ hmem)
    rw [moveAll, ih (by rw [operator_move, hop]) hrest, List.eraseDups_cons]
    cases h : c.movable name source with
    | none => rw [move_of_not_movable h, List.filterMap_cons_none h, filterMap_eraseDups_filter h]
    | some value =>
      -- the source is absent now, so it counts no more if it comes again
      have hgone : (c.move name target source).value name source = none :=
        value_move_source h hne
      have hothers : ∀ key ∈ (sources.filter fun y => !y == source).eraseDups,
          (c.move name target source).movable name key = c.movable name key := by
        intro key hkey
        obtain ⟨hmem, hkey⟩ := List.mem_filter.1 (List.mem_eraseDups.1 hkey)
        refine movable_congr (value_move_of_other fun _ => ⟨?_, by simpa using hkey⟩)
        exact fun heq => hrest (heq ▸ hmem)
      rw [List.filterMap_cons_some h, MergeOperator.appended_cons, value_move_target h hne, hop,
        ← filterMap_eraseDups_filter (movable_of_value_none hgone), List.filterMap_congr hothers]
      rfl

end Contents

/-! ### One move as calls -/

section Steps

variable {σ : Type} [Store σ] {name : String} {target source : Bytes} {stats : MoveStats} {s s₁ : σ}

/-- What is done with a value that is there: the source is deleted, then the value is merged. -/
def carryValue (name : String) (target source value : Bytes) (stats : MoveStats) :
    Call σ StateError MoveStats := do
  (Store.delete name source).attempting .mergingNamespaces
  (Store.merge name target value).attempting .mergingNamespaces
  return { stats with moved := stats.moved + 1, bytes := stats.bytes + value.length }

/-- A value that is not empty is carried over. -/
theorem moveValue_of_get {value : Bytes} (hget : Store.get name source s = (.ok (some value), s₁))
    (hne : value ≠ []) :
    moveValue name target source stats s = carryValue name target source value stats s₁ := by
  obtain ⟨b, bs, rfl⟩ := List.exists_cons_of_ne_nil hne
  exact Call.bind_of_ok (Call.attempting_of_ok .mergingNamespaces hget) _

/-- An absent or empty one is skipped. -/
theorem moveValue_of_nothing {found : Option Bytes}
    (hget : Store.get name source s = (.ok found, s₁)) (hfound : found.filter (· ≠ []) = none) :
    moveValue name target source stats s
      = (.ok { stats with skipped := stats.skipped + 1 }, s₁) := by
  have hattempt := Call.attempting_of_ok .mergingNamespaces hget
  rcases found with _ | ⟨_ | ⟨b, bs⟩⟩
  · exact Call.bind_of_ok hattempt _
  · exact Call.bind_of_ok hattempt _
  · cases hfound

/-- A source that cannot be read ends the move. -/
theorem moveValue_of_get_error {e : StorageError}
    (hget : Store.get name source s = (.error e, s₁)) :
    moveValue name target source stats s = (.error (.access .mergingNamespaces e), s₁) :=
  Call.bind_of_error (Call.attempting_of_error .mergingNamespaces hget) _

/-- A handle moves values between the storage keys of its namespaces. -/
theorem ListState.mergeNamespaces_run {α : Type} (h : ListState α) {target : Part}
    {sources : List Part} {targetKey : Bytes} {sourceKeys : List Bytes}
    (htarget : h.keyInNamespace target = .ok targetKey)
    (hsources : sources.mapM h.keyInNamespace = .ok sourceKeys) (s : σ) :
    h.mergeNamespaces target sources s
      = moveValues h.context.partition targetKey sourceKeys .none s := by
  cases sources with
  | nil =>
    obtain rfl : [] = sourceKeys := Except.ok.inj hsources
    rfl
  | cons source sources =>
    have hfirst : Call.ofExcept (h.keyInNamespace target) s = (.ok targetKey, s) := by
      rw [htarget]
      rfl
    have hthen : Call.ofExcept ((source :: sources).mapM h.keyInNamespace) s
        = (.ok sourceKeys, s) := by
      rw [hsources]
      rfl
    exact (Call.bind_of_ok hfirst _).trans (Call.bind_of_ok hthen _)

end Steps

/-! ### Moves that succeed -/

namespace LikeMemory

variable {σ : Type} [Store σ] {see : σ → Contents} (hlike : LikeMemory see) {name : String}
  {target source : Bytes} {sources : List Bytes} {stats stats' : MoveStats} {s s' : σ}
include hlike

/-- A source is moved, which takes a partition that merges, or there is nothing to move. -/
theorem moveValue_ok (h : moveValue name target source stats s = (.ok stats', s')) :
    see s' = (see s).move name target source ∧
      ((see s).movable name source = none ∨ ∃ op, (see s).operator name = some (some op)) ∧
      stats'.moved + stats'.skipped = stats.moved + stats.skipped + 1 := by
  rcases hget : Store.get name source s with ⟨e | found, s₁⟩
  · -- a source that cannot be read ends the move with an error
    rw [moveValue_of_get_error hget] at h
    cases h
  · obtain ⟨rfl, hsame⟩ := hlike.get_ok hget
    cases hmovable : (see s).movable name source with
    | none =>
      rw [moveValue_of_nothing hget hmovable] at h
      obtain ⟨hstats, rfl⟩ := Prod.mk.inj h
      obtain rfl := Except.ok.inj hstats
      refine ⟨?_, .inl rfl, by simp only; omega⟩
      rw [hsame, Contents.move_of_not_movable hmovable]
    | some value =>
      obtain ⟨hvalue, hne⟩ := Contents.movable_eq_some_iff.1 hmovable
      rw [hvalue] at hget
      rw [moveValue_of_get hget hne] at h
      -- the source is deleted before its value is merged, so the target is looked up without it
      obtain ⟨⟨⟩, s₂, hdelete, h⟩ := Call.bind_eq_ok_iff.1 h
      obtain ⟨⟨⟩, s₃, hmerge, h⟩ := Call.bind_eq_ok_iff.1 h
      obtain ⟨hstats, rfl⟩ := Prod.mk.inj h
      obtain rfl := Except.ok.inj hstats
      have htaken := hlike.delete_ok (Call.attempting_eq_ok_iff.1 hdelete)
      obtain ⟨op, hop, hmerged⟩ := hlike.merge_ok (Call.attempting_eq_ok_iff.1 hmerge)
      rw [htaken, hsame] at hop hmerged
      have hway : (see s).operator name = some (some op) := hop
      refine ⟨?_, .inr ⟨op, hway⟩, by simp only; omega⟩
      rw [hmerged, Contents.move_of_movable hmovable, hway]
      rfl

/-- The sources are moved in turn, which takes a partition that merges if there is anything to
move. -/
theorem moveValues_ok (h : moveValues name target sources stats s = (.ok stats', s')) :
    see s' = (see s).moveAll name target sources ∧
      ((∀ key ∈ sources, (see s).movable name key = none) ∨
        ∃ op, (see s).operator name = some (some op)) ∧
      stats'.moved + stats'.skipped = stats.moved + stats.skipped + sources.length := by
  -- the store changes with every source, so it is general
  induction sources generalizing s stats with
  | nil =>
    obtain ⟨hstats, rfl⟩ := Prod.mk.inj h
    obtain rfl := Except.ok.inj hstats
    exact ⟨rfl, .inl (List.forall_mem_nil _), rfl⟩
  | cons source sources ih =>
    unfold moveValues at h
    obtain ⟨stats₁, s₁, hone, hrest⟩ := Call.bind_eq_ok_iff.1 h
    obtain ⟨hsee, hway, hcount⟩ := hlike.moveValue_ok hone
    obtain ⟨hsees, hways, hcounts⟩ := ih hrest
    rw [hsee] at hsees
    refine ⟨hsees, ?_, by rw [List.length_cons]; omega⟩
    rcases hway with hnone | hop
    · -- with nothing to move the others find what was there
      rw [hsee, Contents.move_of_not_movable hnone] at hways
      rcases hways with hnones | hop
      · exact .inl (List.forall_mem_cons.2 ⟨hnone, hnones⟩)
      · exact .inr hop
    · exact .inr hop

end LikeMemory

/-! ### Moves on a memory store -/

namespace MemoryStore

variable {s : MemoryStore} {name : String} {p : Partition} {op : MergeOperator}

/-- A partition that is set is found. -/
theorem partition_setPartition (hc : s.closed = false) (name : String) (p : Partition) :
    (s.setPartition name p).partition name = .ok p :=
  partition_of_found hc (by rw [find?_setPartition, if_pos rfl])

/-- A partition that merges takes part in a move, and merges as before. -/
theorem moveValue_isOk (hp : s.partition name = .ok p) (hop : p.operator = some op)
    (target source : Bytes) (stats : MoveStats) :
    ∃ stats' s' p', moveValue name target source stats s = (.ok stats', s') ∧
      s'.partition name = .ok p' ∧ p'.operator = some op := by
  have hget : Store.get name source s = (.ok (p.value? source), s) := get_run hp source
  have hc := (partition_eq_ok_iff.1 hp).1
  cases hvalue : (p.value? source).filter (· ≠ []) with
  | none => exact ⟨_, s, p, moveValue_of_nothing hget hvalue, hp, hop⟩
  | some value =>
    obtain ⟨hvalue, hne⟩ := Option.filter_eq_some_iff.1 hvalue
    rw [hvalue] at hget
    have hdelete := Call.attempting_of_ok .mergingNamespaces (delete_run hp source)
    have hdropped := partition_setPartition hc name (p.drop source)
    have hmerge := Call.attempting_of_ok .mergingNamespaces (merge_run hdropped hop target value)
    have hcarry : ∃ stats', carryValue name target source value stats s = (.ok stats', _) :=
      ⟨_, (Call.bind_of_ok hdelete _).trans (Call.bind_of_ok hmerge _)⟩
    obtain ⟨stats', hcarry⟩ := hcarry
    exact ⟨stats', _, _, (moveValue_of_get hget (by simpa using hne)).trans hcarry,
      partition_setPartition (s := (s.setPartition name (p.drop source)).bumped) hc name _, hop⟩

/-- Moves on an open store come to an end. -/
theorem moveValues_isOk (hp : s.partition name = .ok p) (hop : p.operator = some op)
    (target : Bytes) (sources : List Bytes) (stats : MoveStats) :
    ∃ stats' s', moveValues name target sources stats s = (.ok stats', s') := by
  induction sources generalizing s p stats with
  | nil => exact ⟨stats, s, rfl⟩
  | cons source sources ih =>
    obtain ⟨stats₁, s₁, p₁, hone, hp₁, hop₁⟩ := moveValue_isOk hp hop target source stats
    obtain ⟨stats', s', hrest⟩ := ih hp₁ hop₁ stats₁
    exact ⟨stats', s', (Call.bind_of_ok hone _).trans hrest⟩

/-- On a memory store whose partition appends, moves come to an end, and then the target has what it
had before and behind it, separated by the delimiter, what the distinct other sources had, in the
order in which they come first; those are gone, and nothing else has changed. -/
theorem moveValues_gathers {d : UInt8} (hp : s.partitions.find? name = some p)
    (hop : p.operator = some (.stringAppend d)) (target : Bytes) (sources : List Bytes) :
    (s.closed = false →
      ∃ stats s', moveValues name target sources .none s = (.ok stats, s')) ∧
    ∀ stats s', moveValues name target sources .none s = (.ok stats, s') →
      let values := (sources.filter (· ≠ target)).eraseDups.filterMap (s.contents.movable name)
      s'.value? name target
        = (if values = [] then s.value? name target
          else some (Bytes.joinWith d ((s.value? name target).toList ++ values))) ∧
      (∀ key ∈ sources, key ≠ target → (s.contents.movable name key).isSome →
        s'.value? name key = none) ∧
      (∀ name' key,
        (name' = name → key ≠ target ∧ ¬ (key ∈ sources ∧ (s.contents.movable name key).isSome)) →
        s'.value? name' key = s.value? name' key) ∧
      s'.contents.operator = s.contents.operator ∧
      stats.moved + stats.skipped = sources.length := by
  refine ⟨fun hc => moveValues_isOk (partition_of_found hc hp) hop target sources .none, ?_⟩
  intro stats s' h values
  obtain ⟨hcontents, -, hcount⟩ := likeMemory.moveValues_ok h
  have hway : s.contents.operator name = some (some (.stringAppend d)) := by
    simp [contents, hp, hop]
  have hvalue : ∀ name' key, s'.value? name' key
      = (s.contents.moveAll name target sources).value name' key := fun name' key => by
    rw [← hcontents]
    rfl
  refine ⟨?_, fun key hkey hne hmovable => ?_, fun name' key hother => ?_, ?_, ?_⟩
  · -- -- the target among the sources is passed over, so it may be left out of them
    have hnot : target ∉ sources.filter (· ≠ target) := by simp
    rw [hvalue, Contents.moveAll_without_target hway, Contents.value_moveAll_target hway hnot]
    show MergeOperator.appended _ _ values = _
    cases values <;> rfl
  · rw [hvalue, Contents.value_moveAll hne, if_pos ⟨hkey, hmovable⟩]
  · rw [hvalue]
    exact Contents.value_moveAll_elsewhere hother
  · rw [hcontents, Contents.operator_moveAll]
  · rw [hcount]
    exact Nat.zero_add _

/-- Among the sources are the target, one that comes twice, one without a value and one with an
empty one. -/
theorem moveValues_gathers_repeated :
    let s := Foreground.runAll [.change (.create "lists" (some (.stringAppend delimiter))),
      .change (.put "lists" [0] [10]), .change (.merge "lists" [1] [11]),
      .change (.put "lists" [2] []), .change (.merge "lists" [3] [13]),
      .change (.merge "lists" [3] [14])] MemoryStore.empty
    s.Reachable ∧ ∃ p, s.partitions.find? "lists" = some p ∧
      p.operator = some (.stringAppend delimiter) ∧ s.closed = false ∧
      ∃ stats s',
        moveValues "lists" [0] [[1], [0], [7], [1], [2], [3]] .none s = (.ok stats, s') ∧
        s'.value? "lists" [0] = some [10, delimiter, 11, delimiter, 13, delimiter, 14] ∧
        s'.value? "lists" [1] = none ∧ s'.value? "lists" [2] = some [] ∧
        s'.value? "lists" [3] = none ∧ stats.moved + stats.skipped = 6 := by
  intro s
  have hreachable : s.Reachable := Reachable.empty.runAll _
  obtain ⟨p, hp, hop⟩ : ∃ p, s.partitions.find? "lists" = some p ∧
      p.operator = some (.stringAppend delimiter) := ⟨_, rfl, rfl⟩
  have hc : s.closed = false := rfl
  obtain ⟨hends, hrun⟩ := moveValues_gathers hp hop [0] [[1], [0], [7], [1], [2], [3]]
  obtain ⟨stats, s', h⟩ := hends hc
  obtain ⟨htarget, hgone, hothers, -, hcount⟩ := hrun stats s' h
  refine ⟨hreachable, p, hp, hop, hc, stats, s', h, htarget.trans ?_, ?_, ?_, ?_, hcount⟩
  · decide
  · exact hgone [1] (by decide) (by decide) (by decide)
  · exact (hothers "lists" [2] fun _ => ⟨by decide, by decide⟩).trans (by decide)
  · exact hgone [3] (by decide) (by decide) (by decide)

end MemoryStore

end AppendLists
