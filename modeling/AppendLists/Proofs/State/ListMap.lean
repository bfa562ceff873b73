import AppendLists.Proofs.Key.Addressing
import AppendLists.Proofs.ListFormat.TransformAll
import AppendLists.Proofs.Memory.Pass
import AppendLists.State.Namespaces

namespace AppendLists

/-!
# Lists by key and namespace

What the partition of a list state stands for: a map of lists, each under a serialized key and a
serialized namespace. A list without elements stands nowhere; any other list stands at its address
in its written form, whole or as a value with operands behind it.

* `ListMap`, `ListMap.set`, `ListMap.append`, `ListMap.move`: the map and its changes;
* `written`: the stored form of a list;
* `Partition.Holds`: a partition holds a map of lists;
* `Holds.put`, `Holds.drop`, `Holds.queue`: writing to an address changes one list;
* `Holds.pass_of_outcome`, `Holds.writes_of_decisions`: what a pass makes of the lists, and when it
  fails.
-/

/-- A list for every serialized key and serialized namespace. -/
abbrev ListMap (α : Type) := Bytes → Bytes → List α

namespace ListMap

variable {α : Type}

/-- No list has elements. -/
def empty : ListMap α := fun _ _ => []

/-- The map with another list in one place. -/
def set (lists : ListMap α) (key ns : Bytes) (xs : List α) : ListMap α := fun key' ns' =>
  if key' = key ∧ ns' = ns then xs else lists key' ns'

/-- The map with elements behind those of one list. -/
def append (lists : ListMap α) (key ns : Bytes) (xs : List α) : ListMap α :=
  lists.set key ns (lists key ns ++ xs)

/-- Every list filtered. -/
def filterMap (lists : ListMap α) (f : α → Option α) : ListMap α := fun key ns =>
  (lists key ns).filterMap f

end ListMap

variable {α : Type} {codec : Codec α}

/-! ### The stored form of a list -/

/-- What is stored for a list: nothing if it has no elements. -/
def written (codec : Codec α) (xs : List α) : Option Bytes :=
  if xs.isEmpty then none else (encodeList codec xs).toOption

@[simp] theorem written_nil : written codec [] = none := rfl

/-- For a list with elements its written form is stored. -/
theorem written_of_encodeList {xs : List α} {bs : Bytes} (hxs : xs ≠ [])
    (h : encodeList codec xs = .ok bs) : written codec xs = some bs := by
  rw [written, if_neg (by simpa using hxs), h]
  rfl

/-- What is stored for a list with elements that can be written. -/
theorem exists_written (hc : codec.Appending) {xs : List α} (hxs : xs ≠ []) (h : ∀ x ∈ xs, codec.Writes x) :
    ∃ bs, encodeList codec xs = .ok bs ∧ written codec xs = some bs := by
  obtain ⟨bs, hbs⟩ := hc.encodeList_isOk_iff.2 h
  exact ⟨bs, hbs, written_of_encodeList hxs hbs⟩

/-- For the empty list nothing is, and for no other. -/
theorem written_eq_none_iff (hc : codec.Appending) {xs : List α} (h : ∀ x ∈ xs, codec.Writes x) :
    written codec xs = none ↔ xs = [] := by
  constructor
  · intro hnone
    refine Classical.byContradiction fun hxs => ?_
    obtain ⟨_, _, hw⟩ := exists_written hc hxs h
    rw [hnone] at hw
    cases hw
  · rintro rfl
    exact written_nil

/-- A list that is encoded unless it has no elements is what is stored for it. -/
theorem encoded_eq_written (hc : codec.Appending) {xs : List α} (h : ∀ x ∈ xs, codec.Writes x) :
    (if xs = [] then .ok none else (encodeList codec xs).map some : Except StateError _)
      = .ok (written codec xs) := by
  by_cases hnil : xs = []
  · rw [if_pos hnil, hnil, written_nil]
  · obtain ⟨bs, hbs, hw⟩ := exists_written hc hnil h
    rw [if_neg hnil, hbs, hw]
    rfl

/-- What is stored for a list is read back as the list. -/
theorem Codec.Conforming.decodeList_written (hc : codec.Conforming) {xs : List α}
    (h : ∀ x ∈ xs, codec.Writes x) : decodeList codec (written codec xs) = .ok xs := by
  by_cases hxs : xs = []
  · subst hxs
    rfl
  · obtain ⟨bs, hbs, hw⟩ := exists_written hc.appending hxs h
    rw [hw]
    exact hc.decodeList_encodeList hbs

namespace ListMap

/-- The map after the lists of several namespaces of a key were moved behind that of another, one
after the other, and the report of it. A source is emptied before it is appended, so that the
target may be among the sources. -/
def move (codec : Codec α) (key target : Bytes) :
    List Bytes → ListMap α → MoveStats → ListMap α × MoveStats
  | [], lists, stats => (lists, stats)
  | source :: sources, lists, stats =>
    if lists key source = [] then
      move codec key target sources lists { stats with skipped := stats.skipped + 1 }
    else
      let xs := lists key source
      move codec key target sources ((lists.set key source []).append key target xs)
        { stats with
          moved := stats.moved + 1
          bytes := stats.bytes + ((written codec xs).getD []).length }

/-- The first source is moved, and then the others. -/
theorem move_cons (key target source : Bytes) (sources : List Bytes) (lists : ListMap α)
    (stats : MoveStats) :
    move codec key target (source :: sources) lists stats
      = move codec key target sources (move codec key target [source] lists stats).1
          (move codec key target [source] lists stats).2 := by
  by_cases h : lists key source = []
  · simp only [move, if_pos h]
  · simp only [move, if_neg h]

end ListMap

/-! ### Partitions of lists -/

/-- Whether a serialized key has a length that storage keys can hold. -/
def ShortKey (key : Bytes) : Prop := key.length < 0x100000000

/-- A partition holds a map of lists at the addresses of their keys and namespaces, and nothing
else; `next` is the next version. -/
structure Partition.Holds (codec : Codec α) (m : Nat) (lists : ListMap α) (next : Nat)
    (p : Partition) : Prop where
  /-- It merges in the way that lists are joined. -/
  operator : p.operator = some (.stringAppend delimiter)
  /-- It satisfies the invariant of memory stores. -/
  sound : p.Sound next
  /-- Every list is stored at its address. -/
  value : ∀ key ns, ShortKey key → p.value? (address m key ns) = written codec (lists key ns)
  /-- Nothing is stored elsewhere. -/
  addressed : ∀ k v, p.value? k = some v → ∃ key ns, ShortKey key ∧ k = address m key ns
  /-- Every element can be written. -/
  writes : ∀ key ns, ∀ x ∈ lists key ns, codec.Writes x
  /-- Only keys of a possible length have elements. -/
  short : ∀ key ns, ¬ ShortKey key → lists key ns = []

namespace Partition.Holds

variable {m next : Nat} {lists : ListMap α} {p : Partition} {key ns : Bytes} {xs : List α}

/-- A new partition holds the empty list everywhere. -/
theorem empty (codec : Codec α) (m next : Nat) :
    (Partition.mk (some (.stringAppend delimiter)) Table.empty).Holds codec m ListMap.empty next
    where
  operator := rfl
  sound := Partition.Sound.empty _ _
  value _ _ _ := rfl
  addressed k v h := by simp at h
  writes _ _ x hx := by simp [ListMap.empty] at hx
  short _ _ _ := rfl

/-- A change of one value is a change of one list. -/
theorem replace (h : p.Holds codec m lists next) (hkey : ShortKey key)
    (hxs : ∀ x ∈ xs, codec.Writes x) {p' : Partition} {next' : Nat}
    (hop : p'.operator = p.operator) (hsound : p'.Sound next')
    (hv : ∀ k, p'.value? k
      = if k = address m key ns then written codec xs else p.value? k) :
    p'.Holds codec m (lists.set key ns xs) next' where
  operator := by rw [hop, h.operator]
  sound := hsound
  value key' ns' hkey' := by
    rw [hv, ListMap.set]
    -- different lists have different addresses
    by_cases heq : key' = key ∧ ns' = ns
    · rw [if_pos ((address_inj hkey' hkey).2 heq), if_pos heq]
    · rw [if_neg (mt (address_inj hkey' hkey).1 heq), if_neg heq, h.value key' ns' hkey']
  addressed k v hk := by
    rw [hv] at hk
    split at hk
    · case isTrue heq => exact ⟨key, ns, hkey, heq⟩
    · exact h.addressed k v hk
  writes key' ns' x hx := by
    rw [ListMap.set] at hx
    split at hx
    · exact hxs x hx
    · exact h.writes key' ns' x hx
  short key' ns' hlong := by
    rw [ListMap.set, if_neg, h.short key' ns' hlong]
    rintro ⟨rfl, -⟩
    exact hlong hkey

/-- A value that is put is one list. -/
theorem put (h : p.Holds codec m lists next) (hc : codec.Appending) (hkey : ShortKey key)
    {bs : Bytes} (hne : xs ≠ []) (hbs : encodeList codec xs = .ok bs) :
    (p.put (address m key ns) bs next).Holds codec m (lists.set key ns xs) (next + 1) := by
  apply h.replace hkey (hc.encodeList_isOk_iff.1 ⟨bs, hbs⟩) (Partition.operator_put ..)
    (h.sound.put _ _)
  intro k
  rw [Partition.value?_put, written_of_encodeList hne hbs]

/-- Removing a key empties its list. -/
theorem drop (h : p.Holds codec m lists next) (hkey : ShortKey key) :
    (p.drop (address m key ns)).Holds codec m (lists.set key ns []) next := by
  apply h.replace hkey (by simp) (Partition.operator_drop ..) (h.sound.drop _)
  intro k
  rw [Partition.value?_drop, written_nil]

/-- Joining with the delimiter puts one written list behind another. -/
theorem fullMerge_written (hc : codec.Appending) (h : ∀ x ∈ xs, codec.Writes x) {ys : List α}
    {bs : Bytes} (hne : ys ≠ []) (hbs : encodeList codec ys = .ok bs) :
    written codec (xs ++ ys)
      = some ((MergeOperator.stringAppend delimiter).fullMerge (written codec xs) [bs]) := by
  by_cases hxs : xs = []
  · -- an empty list is absent, and joining starts from the operand
    subst hxs
    rw [List.nil_append, written_of_encodeList hne hbs]
    rfl
  · obtain ⟨as, has, hw⟩ := exists_written hc hxs h
    rw [hw, written_of_encodeList (by simp [hne]) (hc.encodeList_append hxs hne has hbs)]
    rfl

/-- A queued operand is a list behind the one that is there. -/
theorem queue (h : p.Holds codec m lists next) (hc : codec.Appending) (hkey : ShortKey key)
    {bs : Bytes} (hne : xs ≠ []) (hbs : encodeList codec xs = .ok bs) :
    (p.queue (address m key ns) bs next).Holds codec m (lists.append key ns xs) (next + 1) := by
  have hold := h.writes key ns
  have hnew := hc.encodeList_isOk_iff.1 ⟨bs, hbs⟩
  apply h.replace hkey ?_ (Partition.operator_queue ..) (h.sound.queue h.operator _ _)
  · intro k
    rw [Partition.value?_queue h.operator, h.value key ns hkey, fullMerge_written hc hold hne hbs]
  · intro x hx
    rcases List.mem_append.1 hx with hx | hx
    · exact hold x hx
    · exact hnew x hx

/-- The list of which a value is the written form. -/
theorem exists_list (h : p.Holds codec m lists next) (hc : codec.Appending) {k v : Bytes}
    (hv : p.value? k = some v) :
    ∃ key ns, ShortKey key ∧ k = address m key ns ∧ lists key ns ≠ [] ∧
      encodeList codec (lists key ns) = .ok v := by
  obtain ⟨key, ns, hkey, rfl⟩ := h.addressed k v hv
  -- what is stored at the address is the list of that address
  rw [h.value key ns hkey] at hv
  have hne : lists key ns ≠ [] := by
    intro hnil
    simp [hnil] at hv
  obtain ⟨bs, hbs, hw⟩ := exists_written hc hne (h.writes key ns)
  obtain rfl : bs = v := Option.some.inj (hw.symm.trans hv)
  exact ⟨key, ns, hkey, rfl, hne, hbs⟩

end Partition.Holds

/-! ### Passes over a partition of lists -/

/-- The filter that transforms every list, all of its elements included. -/
def listPass (codec : Codec α) (f : α → Option α) : PureFilter :=
  ⟨transformName codec, transformList codec ⟨f, .transformAll⟩⟩

namespace Codec.Conforming

variable (hc : codec.Conforming) {f : α → Option α} {xs : List α}
include hc

/-- A filter of elements makes of a written list what is written for those that stay. -/
theorem outcome_listPass_some {bs : Bytes} (hbs : encodeList codec xs = .ok bs) :
    (listPass codec f).outcome (some bs)
      = if xs.filterMap f = [] then .ok none else (encodeList codec (xs.filterMap f)).map some :=
  hc.transformList_encodeList rfl hbs

/-- The filter makes of a stored list what is stored for the filtered list, if that can be
written. -/
theorem outcome_listPass (hxs : ∀ x ∈ xs, codec.Writes x)
    (hys : ∀ y ∈ xs.filterMap f, codec.Writes y) :
    (listPass codec f).outcome (written codec xs) = .ok (written codec (xs.filterMap f)) := by
  by_cases hne : xs = []
  · subst hne
    rfl
  · obtain ⟨bs, hbs, hw⟩ := exists_written hc.appending hne hxs
    rw [hw, hc.outcome_listPass_some hbs, encoded_eq_written hc.appending hys]

/-- The filter fails on a list with a survivor that cannot be written. -/
theorem writes_of_outcome_listPass (hxs : ∀ x ∈ xs, codec.Writes x) {outcome : Option Bytes}
    (h : (listPass codec f).outcome (written codec xs) = .ok outcome) :
    ∀ y ∈ xs.filterMap f, codec.Writes y := by
  by_cases hnil : xs.filterMap f = []
  · simp [hnil]
  · have hne : xs ≠ [] := by
      rintro rfl
      exact hnil rfl
    obtain ⟨bs, hbs, hw⟩ := exists_written hc.appending hne hxs
    rw [hw, hc.outcome_listPass_some hbs, if_neg hnil] at h
    apply hc.appending.encodeList_isOk_iff.1
    cases henc : encodeList codec (xs.filterMap f) with
    | ok bs' => exact ⟨bs', rfl⟩
    | error e =>
      rw [henc] at h
      cases h

end Codec.Conforming

namespace Partition.Holds

variable {m next : Nat} {lists : ListMap α} {p : Partition} {ds : List Decision}

/-- What holds after every value was replaced. -/
theorem mapValues (h : p.Holds codec m lists next) {p' : Partition} {lists' : ListMap α}
    {keep : Bytes → Option Bytes} (hop : p'.operator = p.operator) (hsound : p'.Sound next)
    (hv : ∀ k, p'.value? k = (p.value? k).bind keep)
    (hkeep : ∀ key ns, (written codec (lists key ns)).bind keep = written codec (lists' key ns))
    (hwrites : ∀ key ns, ∀ x ∈ lists' key ns, codec.Writes x)
    (hshort : ∀ key ns, ¬ ShortKey key → lists' key ns = []) :
    p'.Holds codec m lists' next where
  operator := by rw [hop, h.operator]
  sound := hsound
  value key ns hkey := by rw [hv, h.value key ns hkey, hkeep]
  addressed k v hk := by
    rw [hv] at hk
    obtain ⟨v', hv', _⟩ := Option.bind_eq_some_iff.1 hk
    exact h.addressed k v' hv'
  writes := hwrites
  short := hshort

/-- Without a filter a pass decides, and every list stays as it is. -/
theorem fold (h : p.Holds codec m lists next) :
    ∃ ds, PureFilter.decisions none p.captured = .ok ds ∧
      ∀ stats, (MemoryStore.commitDecisions ds p stats).1.Holds codec m lists next := by
  have hdecided : ∃ ds, PureFilter.decisions none p.captured = .ok ds :=
    PureFilter.decisions_isOk fun c _ => ⟨c.value, rfl⟩
  obtain ⟨ds, hds⟩ := hdecided
  refine ⟨ds, hds, ?_⟩
  intro stats
  apply h.mapValues (MemoryStore.operator_commitDecisions ..) (h.sound.commitDecisions ds stats)
    (Partition.value?_pass h.sound hds stats)
  · intro key ns
    cases written codec (lists key ns) <;> rfl
  · exact h.writes
  · exact h.short

/-- A pass decides with a filter that makes of every stored list what is stored for another, and
the other lists are what the partition holds then. -/
theorem pass_of_outcome (h : p.Holds codec m lists next) (hc : codec.Appending)
    {filter : PureFilter} {lists' : ListMap α} (habsent : filter.outcome none = .ok none)
    (houtcome : ∀ key ns, filter.outcome (written codec (lists key ns))
      = .ok (written codec (lists' key ns)))
    (hwrites : ∀ key ns, ∀ x ∈ lists' key ns, codec.Writes x) :
    ∃ ds, PureFilter.decisions (some filter) p.captured = .ok ds ∧
      ∀ stats, (MemoryStore.commitDecisions ds p stats).1.Holds codec m lists' next := by
  -- everything captured is the written form of a list, so the filter answers for it
  have hdecided : ∀ c ∈ p.captured,
      ∃ outcome, PureFilter.decide (some filter) c.value = .ok outcome := by
    intro c hcap
    rw [value_of_mem_captured hcap]
    cases hv : p.value? c.key with
    | none => exact ⟨none, habsent⟩
    | some v =>
      obtain ⟨key, ns, hkey, hk, _⟩ := h.exists_list hc hv
      rw [hk, h.value key ns hkey] at hv
      exact ⟨_, hv ▸ houtcome key ns⟩
  obtain ⟨ds, hds⟩ := PureFilter.decisions_isOk hdecided
  refine ⟨ds, hds, ?_⟩
  intro stats
  apply h.mapValues (MemoryStore.operator_commitDecisions ..) (h.sound.commitDecisions ds stats)
    (Partition.value?_pass h.sound hds stats)
  · intro key ns
    have ho := houtcome key ns
    cases hw : written codec (lists key ns) with
    | none =>
      rw [hw, habsent] at ho
      exact Except.ok.inj ho
    | some v =>
      rw [hw] at ho
      simp only [Option.bind_some, PureFilter.keep, PureFilter.decide, ho]
  · exact hwrites
  · intro key ns hlong
    -- where there is no list the filter makes none
    have ho := houtcome key ns
    rw [h.short key ns hlong, written_nil, habsent] at ho
    exact (written_eq_none_iff hc (hwrites key ns)).1 (Except.ok.inj ho).symm

/-- A pass with a filter decides only if every survivor can be written. -/
theorem writes_of_decisions (hc : codec.Conforming) (h : p.Holds codec m lists next)
    {f : α → Option α}
    (hds : PureFilter.decisions (some (listPass codec f)) p.captured = .ok ds) (key ns : Bytes) :
    ∀ y ∈ lists.filterMap f key ns, codec.Writes y := by
  by_cases hne : lists key ns = []
  · simp [ListMap.filterMap, hne]
  · have hkey : ShortKey key :=
      Classical.byContradiction fun hlong => hne (h.short key ns hlong)
    obtain ⟨v, _, hw⟩ := exists_written hc.appending hne (h.writes key ns)
    have hv : p.value? (address m key ns) = some v := by rw [h.value key ns hkey, hw]
    -- the list was captured, so the filter answered for it
    obtain ⟨c, hmem, _, hvalue⟩ := exists_captured hv
    rw [← PureFilter.captured_of_decisions hds] at hmem
    obtain ⟨d, hd, rfl⟩ := List.mem_map.1 hmem
    have ho := PureFilter.decide_of_mem_decisions hds hd
    rw [hvalue, ← hw] at ho
    exact hc.writes_of_outcome_listPass (h.writes key ns) ho

end Partition.Holds

end AppendLists
