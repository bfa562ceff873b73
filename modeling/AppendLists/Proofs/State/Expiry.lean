import AppendLists.Expiry
import AppendLists.Proofs.State.ListRefinement

namespace AppendLists

/-!
# Expiry and the order of lists

A pass that removes expired elements stops at the first live element of each list, so it removes all
of them if and only if no live element stands before an expired one. Elements that bear the time at
which they are appended stand in the order of time, and every call keeps them so, except a move of
whole lists behind another one: that puts older elements behind younger ones.

* `isExpired_of_le`: what is older expires first;
* `forall_mem_dropWhile_iff`: when stopping early removes everything;
* `expiryPass`, `Keeps.expire_run`: what the pass leaves of every list;
* `TimedOp`, `TimedSystem`: calls and passes beside a clock that never goes back;
* `TimedSpec`, `TimedSystem.run_follows`: the same on a map of lists;
* `ListMap.Past`, `ListMap.InOrder`: the order of time, and the calls that keep it;
* `TimedSystem.run_expire`: what a run leaves after a pass;
* `TimedSystem.moved_list_outlives_pass`: an expired element that stays behind a live one.
-/

variable {α : Type} {codec : Codec α} {ttl now : Int64}

/-! ### Expired elements -/

/-- What was written earlier expires no later. -/
theorem isExpired_of_le {earlier later : Int64} (hle : earlier ≤ later)
    (h : isExpired ttl later now = true) : isExpired ttl earlier now = true := by
  have hle' := Int64.le_iff_toInt_le.1 hle
  rw [isExpired, decide_eq_true_iff, Time.saturate] at h ⊢
  omega

/-- Dropping elements from the front until one stays leaves none to be dropped if and only if, of
any two, the later one is to be dropped only with the earlier one. -/
theorem forall_mem_dropWhile_iff {β : Type} {drops : β → Bool} {xs : List β} :
    (∀ x ∈ xs.dropWhile drops, drops x = false)
      ↔ xs.Pairwise fun x y => drops y = true → drops x = true := by
  induction xs with
  | nil => simp
  | cons x xs ih =>
    rw [List.pairwise_cons]
    by_cases hx : drops x = true
    · rw [List.dropWhile_cons_of_pos hx, ih]
      simp [hx]
    · -- the first element stays, so nothing is dropped and nothing behind it may be to be dropped
      rw [List.dropWhile_cons_of_neg hx, List.forall_mem_cons]
      constructor
      · rintro ⟨-, hxs⟩
        refine ⟨fun y hy hdrop => ?_, ih.1 fun y hy => ?_⟩
        · rw [hxs y hy] at hdrop
          cases hdrop
        · exact hxs y ((List.dropWhile_sublist drops).subset hy)
      · rintro ⟨hfirst, -⟩
        refine ⟨Bool.eq_false_iff.2 hx, fun y hy => Bool.eq_false_iff.2 fun hdrop => ?_⟩
        exact hx (hfirst y hy hdrop)

/-- What is left of a list by a pass that stops at the first live element. -/
def unexpiredFrom (ttl now : Int64) (xs : List (Stamped α)) : List (Stamped α) :=
  xs.dropWhile fun x => isExpired ttl x.lastAccess now

/-- What is left are elements of the list, in order. -/
theorem unexpiredFrom_sublist (ttl now : Int64) (xs : List (Stamped α)) :
    (unexpiredFrom ttl now xs).Sublist xs := List.dropWhile_sublist _

/-- Every list from its first live element on. -/
def ListMap.expire (ttl now : Int64) (lists : ListMap (Stamped α)) : ListMap (Stamped α) :=
  fun key ns => unexpiredFrom ttl now (lists key ns)

/-! ### The pass -/

/-- The filter that removes expired elements from written lists. -/
def expiryPass (codec : Codec α) (ttl now : Int64) : PureFilter :=
  ⟨transformName codec.stamped, transformList codec.stamped (expiryFilter ttl now)⟩

/-- The filter drops what is expired. -/
theorem isNone_expiryFilter (ttl now : Int64) (x : Stamped α) :
    ((expiryFilter ttl now).apply x).isNone = isExpired ttl x.lastAccess now := by
  show (if isExpired ttl x.lastAccess now then none else some x).isNone = _
  cases isExpired ttl x.lastAccess now <;> rfl

/-- The filter makes of a stored list what is stored for the list from its first live element on. -/
theorem Codec.Conforming.outcome_expiryPass (hc : codec.Conforming) {xs : List (Stamped α)}
    (hxs : ∀ x ∈ xs, codec.stamped.Writes x) :
    (expiryPass codec ttl now).outcome (written codec.stamped xs)
      = .ok (written codec.stamped (unexpiredFrom ttl now xs)) := by
  by_cases hne : xs = []
  · subst hne
    rfl
  · obtain ⟨bs, hbs, hw⟩ := exists_written hc.stamped.appending hne hxs
    have houtcome := hc.stamped.transformList_encodeList_of_stop (t := expiryFilter ttl now) rfl hbs
    simp only [isNone_expiryFilter] at houtcome
    rw [encoded_eq_written hc.stamped.appending] at houtcome
    · rw [hw]
      exact houtcome
    · exact fun x hx => hxs x ((unexpiredFrom_sublist ttl now xs).subset hx)

/-- A pass leaves every list from its first live element on. -/
theorem MemoryStore.Keeps.expire_run (hc : codec.Conforming) {name : String} {m : Nat}
    {lists : ListMap (Stamped α)} {s : MemoryStore} (h : s.Keeps codec.stamped name m lists)
    (ttl now : Int64) :
    ∃ stats s', AppendLists.compact name (some (expiryPass codec ttl now).toFilter) (s, ())
        = (.ok stats, s', ()) ∧
      s'.Keeps codec.stamped name m (lists.expire ttl now) := by
  apply h.pass_run_of_outcome hc.stamped.appending rfl
  · exact fun key ns => hc.outcome_expiryPass (h.writes key ns)
  · exact fun key ns x hx => h.writes key ns x ((unexpiredFrom_sublist ..).subset hx)

/-! ### Calls and passes beside a clock -/

/-- The reading of a clock that never goes back after it was told a time. -/
def Time.later (now t : Int64) : Int64 := if now ≤ t then t else now

/-- Time does not go back. -/
theorem Time.le_later (now t : Int64) : now ≤ Time.later now t := by
  unfold later
  split
  · assumption
  · exact Int64.le_refl now

/-- What can happen to a state whose elements expire. -/
inductive TimedOp (α : Type) where
  /-- Time passes, up to a time that may have come already. -/
  | tick (t : Int64)
  /-- A call on a handle. -/
  | call (i : Nat) (c : ListCall (Stamped α))
  /-- A pass that removes what was written at least `ttl` ago. -/
  | expire (ttl : Int64)

/-- A clock, and handles to a state whose elements expire. -/
structure TimedSystem (α : Type) where
  /-- The reading of the clock. -/
  now : Int64
  /-- The store and the handles. -/
  system : ListSystem (Stamped α)

namespace TimedSystem

/-- One thing that happens, with the answer. -/
def step (codec : Codec α) (name : String) (sys : TimedSystem α) :
    TimedOp α → Except StateError (ListReply (Stamped α)) × TimedSystem α
  | .tick t => (.ok .done, { sys with now := Time.later sys.now t })
  | .call i c =>
    let (reply, system) := sys.system.step codec.stamped name (.call i c)
    (reply, { sys with system })
  | .expire ttl =>
    let filter := (expiryPass codec ttl sys.now).toFilter
    let (r, store, ()) := compact name (some filter) (sys.system.store, ())
    (r.map fun _ => .done, { sys with system := { sys.system with store } })

/-- Several things in turn, with the answers. -/
def run (codec : Codec α) (name : String) :
    List (TimedOp α) → TimedSystem α →
      List (Except StateError (ListReply (Stamped α))) × TimedSystem α
  | [], sys => ([], sys)
  | op :: ops, sys =>
    let (reply, sys) := step codec name sys op
    let (replies, sys) := run codec name ops sys
    (reply :: replies, sys)

end TimedSystem

/-! ### The same on a map of lists -/

/-- A call on one of the handles to a map of lists. -/
def ListSpec.call (codec : Codec α) (i : Nat) (c : ListCall α) (spec : ListSpec α) :
    Except StateError (ListReply α) × ListSpec α :=
  match c.spec codec (spec.pointers i) spec.lists with
  | .error e => (.error e, spec)
  | .ok (reply, p, lists) => (.ok reply, ⟨lists, fun j => if j = i then p else spec.pointers j⟩)

/-- What a call answers, and what it leaves, is determined. -/
theorem ListSpec.Step.eq_call {i : Nat} {c : ListCall α} {spec spec' : ListSpec α}
    {reply : Except StateError (ListReply α)} (h : Step codec (.call i c) spec reply spec') :
    spec.call codec i c = (reply, spec') := by
  unfold ListSpec.call
  cases h with
  | answered h => rw [h]
  | refused h => rw [h]

/-- A clock, a map of lists, and what the handles point at. -/
structure TimedSpec (α : Type) where
  /-- The reading of the clock. -/
  now : Int64
  /-- The lists and the pointers. -/
  state : ListSpec (Stamped α)

namespace TimedSpec

/-- No elements, and no keys yet. -/
def start (now : Int64) : TimedSpec α := ⟨now, .start⟩

/-- The lists. -/
def lists (spec : TimedSpec α) : ListMap (Stamped α) := spec.state.lists

/-- One thing that happens, with the answer. -/
def step (codec : Codec α) (spec : TimedSpec α) :
    TimedOp α → Except StateError (ListReply (Stamped α)) × TimedSpec α
  | .tick t => (.ok .done, { spec with now := Time.later spec.now t })
  | .call i c =>
    let (reply, state) := spec.state.call codec.stamped i c
    (reply, { spec with state })
  | .expire ttl =>
    (.ok .done, { spec with state := { spec.state with lists := spec.lists.expire ttl spec.now } })

/-- Several things in turn, with the answers. -/
def run (codec : Codec α) :
    List (TimedOp α) → TimedSpec α → List (Except StateError (ListReply (Stamped α))) × TimedSpec α
  | [], spec => ([], spec)
  | op :: ops, spec =>
    let (reply, spec) := step codec spec op
    let (replies, spec) := run codec ops spec
    (reply :: replies, spec)

/-- The last step comes behind the others. -/
theorem run_concat (ops : List (TimedOp α)) (op : TimedOp α) (spec : TimedSpec α) :
    run codec (ops ++ [op]) spec
      = ((run codec ops spec).1 ++ [((run codec ops spec).2.step codec op).1],
          ((run codec ops spec).2.step codec op).2) := by
  induction ops generalizing spec with
  | nil => rfl
  | cons first ops ih => simp only [List.cons_append, run, ih]

end TimedSpec

/-- Whether a call points its handle only at a key of a possible length. -/
def TimedOp.Short : TimedOp α → Prop
  | .call _ c => c.Short
  | _ => True

/-- What calls and passes preserve: the clocks agree, the store holds the lists, and the handles
point as they should. -/
structure TimedSystem.Refines (codec : Codec α) (name : String) (m : Nat) (sys : TimedSystem α)
    (spec : TimedSpec α) : Prop where
  /-- The clocks agree. -/
  now : sys.now = spec.now
  /-- The store and the handles are those of the lists and the pointers. -/
  system : sys.system.Refines codec.stamped name m spec.state

namespace TimedSystem

variable {name : String} {m : Nat} {sys : TimedSystem α} {spec : TimedSpec α}

/-- Whatever happens comes out as on a map of lists. -/
theorem step_follows (hc : codec.Conforming) (h : sys.Refines codec name m spec) {op : TimedOp α}
    (hshort : op.Short) :
    (sys.step codec name op).1 = (spec.step codec op).1 ∧
      (sys.step codec name op).2.Refines codec name m (spec.step codec op).2 := by
  cases op with
  | tick t => exact ⟨rfl, by rw [step, TimedSpec.step, h.now], h.system⟩
  | call i c =>
    obtain ⟨state, hstep, hstate⟩ := ListSystem.step_call_refines hc.stamped h.system i hshort
    have hcall := hstep.eq_call
    rw [step, TimedSpec.step, hcall]
    exact ⟨rfl, h.now, hstate⟩
  | expire ttl =>
    obtain ⟨stats, s, hrun, hkeeps⟩ := h.system.keeps.expire_run hc ttl sys.now
    simp only [step, hrun]
    rw [h.now] at hkeeps
    exact ⟨rfl, h.now, hkeeps, h.system.handles, h.system.short⟩

/-- A whole run comes out as on a map of lists. -/
theorem run_follows (hc : codec.Conforming) (h : sys.Refines codec name m spec)
    {ops : List (TimedOp α)} (hshort : ∀ op ∈ ops, op.Short) :
    (run codec name ops sys).1 = (TimedSpec.run codec ops spec).1 ∧
      (run codec name ops sys).2.Refines codec name m (TimedSpec.run codec ops spec).2 := by
  induction ops generalizing sys spec with
  | nil => exact ⟨rfl, h⟩
  | cons op ops ih =>
    obtain ⟨hop, hops⟩ := List.forall_mem_cons.1 hshort
    obtain ⟨hreply, h₁⟩ := step_follows hc h hop
    obtain ⟨hreplies, h₂⟩ := ih h₁ hops
    exact ⟨List.cons_eq_cons.2 ⟨hreply, hreplies⟩, h₂⟩

end TimedSystem

/-! ### The order of time -/

namespace ListMap

/-- What holds of every list holds when one is replaced by a list of which it holds. -/
theorem forall_set {P : List α → Prop} {lists : ListMap α} (h : ∀ key ns, P (lists key ns))
    {xs : List α} (hxs : P xs) (key ns key' ns' : Bytes) : P (lists.set key ns xs key' ns') := by
  rw [set]
  split
  · exact hxs
  · exact h key' ns'

/-- Moving lists brings no new elements. -/
theorem forall_mem_move {P : α → Prop} (sources : List Bytes) {lists : ListMap α}
    (h : ∀ key ns, ∀ x ∈ lists key ns, P x) (key target : Bytes) (stats : MoveStats) :
    ∀ key' ns', ∀ x ∈ (lists.move codec key target sources stats).1 key' ns', P x := by
  induction sources generalizing lists stats with
  | nil => exact h
  | cons source sources ih =>
    rw [move]
    split
    · exact ih h _
    · have hemptied : ∀ key' ns', ∀ x ∈ lists.set key source [] key' ns', P x :=
        forall_set (P := fun xs => ∀ x ∈ xs, P x) h (by simp) key source
      apply ih
      apply forall_set (P := fun xs => ∀ x ∈ xs, P x) hemptied
      intro x hx
      rcases List.mem_append.1 hx with hx | hx
      · exact hemptied key target x hx
      · exact h key source x hx

/-- No element bears a time that has not come. -/
def Past (now : Int64) (lists : ListMap (Stamped α)) : Prop :=
  ∀ key ns, ∀ x ∈ lists key ns, x.lastAccess ≤ now

/-- Every list is in the order of time. -/
def InOrder (lists : ListMap (Stamped α)) : Prop :=
  ∀ key ns, (lists key ns).Pairwise fun x y => x.lastAccess ≤ y.lastAccess

variable {lists : ListMap (Stamped α)}

/-- A list that is written now is not of the future. -/
theorem Past.set (h : lists.Past now) {xs : List (Stamped α)}
    (hxs : ∀ x ∈ xs, x.lastAccess = now) (key ns : Bytes) : (lists.set key ns xs).Past now :=
  forall_set (P := fun xs : List (Stamped α) => ∀ x ∈ xs, x.lastAccess ≤ now) h
    (fun x hx => hxs x hx ▸ Int64.le_refl _) key ns

/-- Nor is one that is appended to. -/
theorem Past.append (h : lists.Past now) {xs : List (Stamped α)}
    (hxs : ∀ x ∈ xs, x.lastAccess = now) (key ns : Bytes) : (lists.append key ns xs).Past now := by
  apply forall_set (P := fun xs : List (Stamped α) => ∀ x ∈ xs, x.lastAccess ≤ now) h
  intro x hx
  rcases List.mem_append.1 hx with hx | hx
  · exact h key ns x hx
  · exact hxs x hx ▸ Int64.le_refl _

/-- What is past stays so. -/
theorem Past.later (h : lists.Past now) (t : Int64) : lists.Past (Time.later now t) :=
  fun key ns x hx => Int64.le_trans (h key ns x hx) (Time.le_later now t)

theorem Past.expire (h : lists.Past now) (ttl t : Int64) : (lists.expire ttl t).Past now :=
  fun key ns x hx => h key ns x ((unexpiredFrom_sublist ..).subset hx)

/-- Elements of one time are in the order of time. -/
theorem pairwise_of_eq {xs : List (Stamped α)} (hxs : ∀ x ∈ xs, x.lastAccess = now) :
    xs.Pairwise fun x y => x.lastAccess ≤ y.lastAccess := by
  apply List.pairwise_of_forall_mem_list
  intro x hx y hy
  rw [hxs x hx, hxs y hy]
  exact Int64.le_refl now

/-- A list that is written at one time is in order. -/
theorem InOrder.set (h : lists.InOrder) {xs : List (Stamped α)}
    (hxs : ∀ x ∈ xs, x.lastAccess = now) (key ns : Bytes) : (lists.set key ns xs).InOrder :=
  forall_set (P := List.Pairwise fun x y : Stamped α => x.lastAccess ≤ y.lastAccess) h
    (pairwise_of_eq hxs) key ns

/-- What is appended now bears a time that none of the others is after. -/
theorem InOrder.append (h : lists.InOrder) (hpast : lists.Past now) {xs : List (Stamped α)}
    (hxs : ∀ x ∈ xs, x.lastAccess = now) (key ns : Bytes) : (lists.append key ns xs).InOrder := by
  apply forall_set (P := List.Pairwise fun x y : Stamped α => x.lastAccess ≤ y.lastAccess) h
  rw [List.pairwise_append]
  refine ⟨h key ns, pairwise_of_eq hxs, ?_⟩
  intro x hx y hy
  rw [hxs y hy]
  exact hpast key ns x hx

/-- A list in order is in order from any element on. -/
theorem InOrder.expire (h : lists.InOrder) (ttl now : Int64) : (lists.expire ttl now).InOrder :=
  fun key ns => (h key ns).sublist (unexpiredFrom_sublist ..)

end ListMap

/-! ### Calls and the order of time -/

/-- Whether all that a call writes bears the time `now`. -/
def ListCall.Stamps (now : Int64) : ListCall (Stamped α) → Prop
  | .add x => x.lastAccess = now
  | .addAll xs => ∀ x ∈ xs, x.lastAccess = now
  | .update xs => ∀ x ∈ xs, x.lastAccess = now
  | _ => True

/-- Whether a call moves lists. -/
def ListCall.Moves : ListCall α → Prop
  | .mergeNamespaces _ _ => True
  | _ => False

/-- What a call that moves no lists makes of the lists: it replaces or extends one of them, if it
changes any. -/
theorem ListCall.lists_of_spec {c : ListCall (Stamped α)} {p p' : Pointer}
    {lists lists' : ListMap (Stamped α)} {reply : ListReply (Stamped α)}
    (hspec : c.spec codec.stamped p lists = .ok (reply, p', lists')) (hmoves : ¬ c.Moves)
    (hstamps : c.Stamps now) :
    lists' = lists ∨ ∃ key ns xs, (∀ x ∈ xs, x.lastAccess = now) ∧
      (lists' = lists.set key ns xs ∨ lists' = lists.append key ns xs) := by
  cases c with
  -- the calls that point a handle elsewhere or read change no list
  | setKey | setNamespace | get | getRaw =>
    obtain ⟨_, -, h⟩ := bind_eq_ok hspec
    cases h
    exact .inl rfl
  | add x =>
    obtain ⟨_, -, h⟩ := bind_eq_ok hspec
    obtain ⟨key, -, h⟩ := bind_eq_ok h
    cases h
    exact .inr ⟨key, p.ns, [x], List.forall_mem_singleton.2 hstamps, .inr rfl⟩
  | addAll xs =>
    -- adding nothing is answered without a look at the store
    cases xs with
    | nil =>
      cases hspec
      exact .inl rfl
    | cons x xs =>
      obtain ⟨_, -, h⟩ := bind_eq_ok hspec
      obtain ⟨key, -, h⟩ := bind_eq_ok h
      cases h
      exact .inr ⟨key, p.ns, x :: xs, hstamps, .inr rfl⟩
  | update xs =>
    obtain ⟨key, -, h⟩ := bind_eq_ok hspec
    obtain ⟨_, -, h⟩ := bind_eq_ok h
    cases h
    exact .inr ⟨key, p.ns, xs, hstamps, .inl rfl⟩
  | clear =>
    obtain ⟨key, -, h⟩ := bind_eq_ok hspec
    cases h
    exact .inr ⟨key, p.ns, [], List.forall_mem_nil _, .inl rfl⟩
  | mergeNamespaces target sources => exact absurd trivial hmoves

/-- What a call that moves lists makes of them. -/
theorem ListCall.lists_of_spec_move {c : ListCall α} {p p' : Pointer} {lists lists' : ListMap α}
    {reply : ListReply α} (hspec : c.spec codec p lists = .ok (reply, p', lists'))
    (hmoves : c.Moves) :
    ∃ key target sources, lists' = (lists.move codec key target sources .none).1 := by
  cases c with
  | mergeNamespaces target sources =>
    cases sources with
    | nil =>
      cases hspec
      exact ⟨[], [], [], rfl⟩
    | cons source sources =>
      obtain ⟨targetNs, -, h⟩ := bind_eq_ok hspec
      obtain ⟨key, -, h⟩ := bind_eq_ok h
      obtain ⟨sourceNs, -, h⟩ := bind_eq_ok h
      cases h
      exact ⟨key, targetNs, sourceNs, rfl⟩
  | _ => exact hmoves.elim

/-- A call keeps the lists in the past. -/
theorem ListMap.Past.spec {lists lists' : ListMap (Stamped α)} (h : lists.Past now)
    {c : ListCall (Stamped α)} (hstamps : c.Stamps now) {p p' : Pointer}
    {reply : ListReply (Stamped α)}
    (hspec : c.spec codec.stamped p lists = .ok (reply, p', lists')) : lists'.Past now := by
  by_cases hmoves : c.Moves
  · obtain ⟨key, target, sources, rfl⟩ := ListCall.lists_of_spec_move hspec hmoves
    exact ListMap.forall_mem_move sources h key target .none
  · rcases ListCall.lists_of_spec hspec hmoves hstamps with rfl | ⟨key, ns, xs, hxs, rfl | rfl⟩
    · exact h
    · exact h.set hxs key ns
    · exact h.append hxs key ns

/-- A call that moves no lists keeps them in the order of time. -/
theorem ListMap.InOrder.spec {lists lists' : ListMap (Stamped α)} (h : lists.InOrder)
    (hpast : lists.Past now) {c : ListCall (Stamped α)} (hmoves : ¬ c.Moves)
    (hstamps : c.Stamps now) {p p' : Pointer} {reply : ListReply (Stamped α)}
    (hspec : c.spec codec.stamped p lists = .ok (reply, p', lists')) : lists'.InOrder := by
  rcases ListCall.lists_of_spec hspec hmoves hstamps with rfl | ⟨key, ns, xs, hxs, rfl | rfl⟩
  · exact h
  · exact h.set hxs key ns
  · exact h.append hpast hxs key ns

/-! ### Runs and the order of time -/

namespace TimedOp

/-- Whether all that is written bears the time `now`. -/
def Stamps (now : Int64) : TimedOp α → Prop
  | .call _ c => c.Stamps now
  | _ => True

/-- Whether lists are moved. -/
def Moves : TimedOp α → Prop
  | .call _ c => c.Moves
  | _ => False

/-- What the clock reads afterwards. -/
def clock (now : Int64) : TimedOp α → Int64
  | .tick t => Time.later now t
  | _ => now

/-- Whether all that a run writes bears the time at which it is written. -/
def OnTime : Int64 → List (TimedOp α) → Prop
  | _, [] => True
  | now, op :: ops => op.Stamps now ∧ OnTime (op.clock now) ops

end TimedOp

namespace TimedSpec

/-- Whether every move of lists in a run leaves them in the order of time. -/
def MovesInOrder (codec : Codec α) : List (TimedOp α) → TimedSpec α → Prop
  | [], _ => True
  | op :: ops, spec =>
    (op.Moves → (spec.step codec op).2.lists.InOrder) ∧
      MovesInOrder codec ops (spec.step codec op).2

/-- The lists are in the order of time, and the last time has come. -/
structure Timely (spec : TimedSpec α) : Prop where
  /-- No time is still to come. -/
  past : spec.lists.Past spec.now
  /-- Every list is in the order of time. -/
  inOrder : spec.lists.InOrder

theorem Timely.start (now : Int64) : (TimedSpec.start (α := α) now).Timely :=
  ⟨fun _ _ _ hx => (List.not_mem_nil hx).elim, fun _ _ => .nil⟩

variable {spec : TimedSpec α}

/-- The clock is set by what happens, not by the lists. -/
theorem now_step (codec : Codec α) (op : TimedOp α) :
    (spec.step codec op).2.now = op.clock spec.now := by
  cases op <;> rfl

/-- The order of time is kept unless a move breaks it. -/
theorem Timely.step (h : spec.Timely) {op : TimedOp α} (hstamps : op.Stamps spec.now)
    (hmoves : op.Moves → (spec.step codec op).2.lists.InOrder) : (spec.step codec op).2.Timely := by
  cases op with
  | tick t => exact ⟨h.past.later t, h.inOrder⟩
  | expire ttl => exact ⟨h.past.expire ttl spec.now, h.inOrder.expire ttl spec.now⟩
  | call i c =>
    -- a call that is refused changes nothing
    rw [TimedSpec.step, ListSpec.call] at hmoves ⊢
    cases hspec : c.spec codec.stamped (spec.state.pointers i) spec.state.lists with
    | error e => exact h
    | ok result =>
      obtain ⟨reply, p, lists⟩ := result
      rw [hspec] at hmoves
      refine ⟨h.past.spec hstamps hspec, ?_⟩
      by_cases hm : c.Moves
      · exact hmoves hm
      · exact h.inOrder.spec h.past hm hstamps hspec

/-- Any number of steps keep the lists in order of time, as long as moves do. -/
theorem Timely.run (h : spec.Timely) {ops : List (TimedOp α)}
    (htime : TimedOp.OnTime spec.now ops) (hmoves : MovesInOrder codec ops spec) :
    (TimedSpec.run codec ops spec).2.Timely := by
  induction ops generalizing spec with
  | nil => exact h
  | cons op ops ih =>
    obtain ⟨hstamps, hrest⟩ := htime
    rw [← now_step codec] at hrest
    exact ih (h.step hstamps hmoves.1) hrest hmoves.2

end TimedSpec

/-! ### What a pass leaves -/

/-- A pass leaves no expired element in a list that is in the order of time. -/
theorem not_isExpired_of_mem_unexpiredFrom {xs : List (Stamped α)}
    (h : xs.Pairwise fun x y => x.lastAccess ≤ y.lastAccess) :
    ∀ x ∈ unexpiredFrom ttl now xs, isExpired ttl x.lastAccess now = false :=
  forall_mem_dropWhile_iff.2 (h.imp isExpired_of_le)

namespace TimedSystem

/-- New handles to a state of which nothing has been written, and a clock. -/
def start (codec : Codec α) (name : String) (m : Nat) (now : Int64) (s : MemoryStore) :
    TimedSystem α := ⟨now, ListSystem.start codec.stamped name m s⟩

/-- **What a pass leaves.** After any run on a new append partition, whose elements bear the time at
which they were written, a pass succeeds and leaves of every list what stands behind its expired
front. Of one list it leaves no expired element if and only if no live one stood before an expired
one. It leaves none at all if every move of lists in the run left them in the order of time. -/
theorem run_expire (hc : codec.Conforming) {name : String} {s₀ s : MemoryStore}
    (hcreate : MemoryStore.create name (some (.stringAppend delimiter)) s₀ = (.ok (), s)) (m : Nat)
    {now : Int64} {ops : List (TimedOp α)} (hshort : ∀ op ∈ ops, op.Short)
    (htime : TimedOp.OnTime now ops) (ttl : Int64) :
    let result := run codec name (ops ++ [.expire ttl]) (start codec name m now s)
    let before := TimedSpec.run codec ops (.start now)
    let left := before.2.lists.expire ttl before.2.now
    result.1 = before.1 ++ [.ok .done] ∧ result.2.now = before.2.now ∧
      result.2.system.store.Shows codec.stamped name m left ∧
      (∀ key ns, (∀ x ∈ left key ns, isExpired ttl x.lastAccess before.2.now = false)
        ↔ (before.2.lists key ns).Pairwise fun x y =>
          isExpired ttl y.lastAccess before.2.now = true →
            isExpired ttl x.lastAccess before.2.now = true) ∧
      (TimedSpec.MovesInOrder codec ops (.start now) →
        ∀ key ns, ∀ x ∈ left key ns, isExpired ttl x.lastAccess before.2.now = false) := by
  intro result before left
  have hstart : (start codec name m now s).Refines codec name m (.start now) :=
    ⟨rfl, .of_create hcreate, fun _ => rfl, fun _ _ h => nomatch h⟩
  have hshort' : ∀ op ∈ ops ++ [.expire ttl], op.Short := by
    intro op hop
    rcases List.mem_append.1 hop with hop | hop
    · exact hshort op hop
    · obtain rfl := List.mem_singleton.1 hop
      trivial
  obtain ⟨hreplies, hrefines⟩ := run_follows hc hstart hshort'
  rw [TimedSpec.run_concat] at hreplies hrefines
  refine ⟨hreplies, hrefines.now, hrefines.system.keeps.shows hc.stamped.appending, ?_, ?_⟩
  · exact fun key ns => forall_mem_dropWhile_iff
  · -- -- a list in the order of time has no live element in front of an expired one
    intro hmoves key ns
    have htimely : before.2.Timely := (TimedSpec.Timely.start now).run htime hmoves
    exact not_isExpired_of_mem_unexpiredFrom (htimely.inOrder key ns)

/-- A younger list and an older one that is moved behind it: when only the older one has expired, a
pass leaves both. -/
theorem moved_list_outlives_pass :
    let ops : List (TimedOp UInt64) :=
      [.call 0 (.setKey (.unsigned 1)), .call 0 (.setNamespace (.text "a")),
        .call 0 (.add ⟨1, 0⟩), .tick 8, .call 0 (.setNamespace (.text "b")),
        .call 0 (.add ⟨2, 8⟩), .call 0 (.mergeNamespaces (.text "b") [.text "a"]), .tick 12]
    let created := MemoryStore.create "s" (some (.stringAppend delimiter)) MemoryStore.empty
    let result := run Codec.u64 "s" (ops ++ [.expire 10]) (start Codec.u64 "s" 128 0 created.2)
    Codec.u64.Conforming ∧ created.1 = .ok () ∧ (∀ op ∈ ops, op.Short) ∧ TimedOp.OnTime 0 ops ∧
      result.1.getLast? = some (.ok .done) ∧ result.2.now = 12 ∧
      (MemoryStore.get "s" (address 128 [1] [0xA1, 0x62]) result.2.system.store).1
        = .ok (written Codec.u64.stamped [⟨2, 8⟩, ⟨1, 0⟩]) ∧
      isExpired 10 0 12 = true := by
  intro ops created
  have hcreate : created = (.ok (), created.2) := rfl
  have hkey : (ListCall.setKey (α := Stamped UInt64) (.unsigned 1)).Short := by
    intro bytes hbytes
    obtain rfl : [1] = bytes := Except.ok.inj hbytes
    show 1 < 0x100000000
    decide
  have hshort : ∀ op ∈ ops, op.Short := by
    simpa [ops, TimedOp.Short, ListCall.Short] using hkey
  have htime : TimedOp.OnTime 0 ops := by
    simp [ops, TimedOp.OnTime, TimedOp.Stamps, ListCall.Stamps, TimedOp.clock, Time.later]
  obtain ⟨hreplies, hnow, hshows, -, -⟩ :=
    run_expire Codec.conforming_u64 hcreate 128 hshort htime 10
  have hlast : (TimedSpec.run Codec.u64 ops (.start 0)).2.now = 12 := rfl
  have hleft : (TimedSpec.run Codec.u64 ops (.start 0)).2.lists.expire 10 12 [1] [0xA1, 0x62]
      = [⟨2, 8⟩, ⟨1, 0⟩] := by decide +kernel
  have hget := hshows.get [1] [0xA1, 0x62] (by unfold ShortKey; decide)
  rw [hlast] at hnow hget
  rw [hleft] at hget
  -- what the run does is known now, so it need not be computed
  generalize run Codec.u64 "s" (ops ++ [.expire 10]) (start Codec.u64 "s" 128 0 created.2) = outcome
    at hreplies hnow hget ⊢
  refine ⟨Codec.conforming_u64, rfl, hshort, htime, ?_, hnow, hget, rfl⟩
  rw [hreplies, List.getLast?_concat]

end TimedSystem

end AppendLists
