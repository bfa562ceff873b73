import AppendLists.Backend.Basic
import AppendLists.Catalogue.Codec
import AppendLists.Proofs.Log.Acceptance
import AppendLists.Proofs.Memory.Interleaving
import AppendLists.Proofs.State.ListRefinement
import Mathlib.Data.List.Basic

namespace AppendLists

/-!
# Calls that fail

A call on a list handle is prepared before it changes anything: what it needs to know is read,
encoded and serialized first, and one call of the store comes last. So a call that fails has changed
nothing, neither in the store nor in its log nor in the handle. Only the moves between namespaces
make several changes, and they too make none as long as a namespace cannot be found.

* `Call.Quiet`, `Call.FailsClean`: calls that change nothing, and calls that change nothing if they
  fail, with the rules for sequences;
* `CleanStore`: a store whose reads are quiet and whose writes fail clean;
  `MemoryStore.cleanStore`, `LogStore.cleanStore`: memory and log stores;
* `Desk`, `HandleCall`, `HandleCall.run`: a handle on a backend, and the calls on it;
* `HandleCall.run_error`: a call that fails, over any such store;
* `failed_call_leaves_no_trace`: over memory and log stores.
-/

variable {σ τ ε α β γ : Type}

/-! ### Calls that change nothing -/

namespace Call

/-- Whatever becomes of the call, it keeps what `see` shows of the store. -/
def Quiet (see : σ → γ) (call : Call σ ε α) : Prop :=
  ∀ v, Keeps (fun s => see s = v) call fun _ => True

/-- If the call fails, it leaves what `see` shows of the store. -/
def FailsClean (see : σ → γ) (call : Call σ ε α) : Prop :=
  ∀ s e s', call s = (.error e, s') → see s' = see s

variable {see : σ → γ} {call : Call σ ε α}

/-- A quiet call leaves what is seen as it was. -/
theorem Quiet.view_eq (h : Quiet see call) (s : σ) : see (call s).2 = see s := (h (see s) s rfl).1

/-- So it does if it fails. -/
theorem Quiet.failsClean (h : Quiet see call) : FailsClean see call := by
  intro s e s' hrun
  have hs := h.view_eq s
  rwa [hrun] at hs

/-- A call that leaves the store as it is. -/
theorem Quiet.of_eq (h : ∀ s, (call s).2 = s) : Quiet see call := by
  intro v s hs
  rw [h s]
  exact ⟨hs, fun _ _ => trivial⟩

/-- What does not ask the store is quiet. -/
theorem Quiet.ofExcept (r : Except ε α) : Quiet see (Call.ofExcept r) :=
  .of_eq fun _ => by cases r <;> rfl

/-- Quiet calls in turn are quiet. -/
theorem Quiet.bind (h : Quiet see call) {next : α → Call σ ε β} (hnext : ∀ a, Quiet see (next a)) :
    Quiet see (call >>= next) :=
  fun v => (h v).bind fun a _ => hnext a v

/-- So is an attempt at a quiet call. -/
theorem Quiet.attempting {call : Call σ StorageError α} (h : Quiet see call) (attempt : Attempt) :
    Quiet see (call.attempting attempt) :=
  fun v => (h v).attempting attempt

/-- So is a quiet call beside something else. -/
theorem Quiet.onFirst (h : Quiet see call) :
    Quiet (fun p : σ × τ => see p.1) (call.onFirst : Call (σ × τ) ε α) :=
  fun v p hp => h v p.1 hp

/-- What comes before the only call that changes something has to be quiet. -/
theorem Quiet.bind_failsClean (h : Quiet see call) {next : α → Call σ ε β}
    (hnext : ∀ a, FailsClean see (next a)) : FailsClean see (call >>= next) := by
  intro s e s' hrun
  have hs := h.view_eq s
  rcases bind_eq_error_iff.1 hrun with hcall | ⟨a, s₁, hcall, hrest⟩
  · rwa [hcall] at hs
  · rw [hcall] at hs
    exact (hnext a s₁ e s' hrest).trans hs

/-- An attempt leaves no more traces than what it attempts. -/
theorem FailsClean.attempting {call : Call σ StorageError α} (h : FailsClean see call)
    (attempt : Attempt) : FailsClean see (call.attempting attempt) := by
  intro s e s' hrun
  obtain ⟨cause, -, hcall⟩ := attempting_eq_error_iff.1 hrun
  exact h s cause s' hcall

end Call

/-! ### Stores that fail clean -/

/-- Reading changes nothing that `see` shows of a store, and writing changes nothing if it fails. -/
structure CleanStore [Store σ] (see : σ → γ) : Prop where
  /-- Reading. -/
  get : ∀ name key, Call.Quiet see (Store.get name key : Call σ StorageError (Option Bytes))
  /-- Replacing. -/
  put : ∀ name key value, Call.FailsClean see (Store.put name key value : Call σ StorageError Unit)
  /-- Deleting. -/
  delete : ∀ name key, Call.FailsClean see (Store.delete name key : Call σ StorageError Unit)
  /-- Merging. -/
  merge : ∀ name key operand,
    Call.FailsClean see (Store.merge name key operand : Call σ StorageError Unit)

namespace MemoryStore

/-- All of a store but the version of the next write. -/
def stored (s : MemoryStore) : Table String Partition × Bool := (s.partitions, s.closed)

/-- A change of a partition that is refused leaves the store as it was. -/
theorem modify_failsClean (name : String) (f : Partition → Except StorageError Partition) :
    Call.FailsClean stored (modify name f) := by
  intro s e s' h
  unfold modify at h
  split at h
  · cases h
  · obtain ⟨-, rfl⟩ := Prod.mk.inj h
    rfl

/-- The version that is used up does not show. -/
theorem versioned_failsClean {change : Nat → Call MemoryStore StorageError Unit}
    (h : ∀ version, Call.FailsClean stored (change version)) :
    Call.FailsClean stored (versioned change) :=
  fun s e s' hrun => h s.nextVersion { s with nextVersion := s.nextVersion + 1 } e s' hrun

/-- A memory store hands out a version before it looks whether it can make the change; nothing else
is different after a failure. -/
theorem cleanStore : CleanStore stored where
  get _ _ := .of_eq fun _ => rfl
  put name key value := by
    show Call.FailsClean stored (put name key value)
    exact versioned_failsClean fun version => modify_failsClean name _
  delete name _ := modify_failsClean name _
  merge name key operand := by
    show Call.FailsClean stored (merge name key operand)
    exact versioned_failsClean fun version => modify_failsClean name _

end MemoryStore

namespace LogStore

/-- A change that fails is neither logged nor applied. -/
theorem logThenApply_failsClean (m : Mutation) : Call.FailsClean id (logThenApply m) :=
  fun _ _ _ hrun => (logThenApply_eq_error_iff.1 hrun).1

/-- A log store looks first, and then logs. -/
theorem cleanStore : CleanStore (id : LogStore → LogStore) where
  get _ _ := .of_eq fun _ => rfl
  put _ _ _ := logThenApply_failsClean _
  delete _ _ := logThenApply_failsClean _
  merge _ _ _ := logThenApply_failsClean _

end LogStore

/-! ### The calls of a handle -/

namespace ListState

variable [Store σ] {see : σ → γ} {h : ListState α}

/-- The calls that read are quiet. -/
theorem quiet_getRaw (hs : CleanStore see) : Call.Quiet see (h.getRaw : Call σ StateError _) :=
  (Call.Quiet.ofExcept _).bind fun key => (hs.get _ key).attempting _

theorem quiet_get (hs : CleanStore see) : Call.Quiet see (h.get : Call σ StateError (List α)) :=
  (quiet_getRaw hs).bind fun _ => .ofExcept _

/-- Appending what was written makes one merge, so there is nothing to undo. -/
theorem failsClean_mergeFragment (hs : CleanStore see) (fragment : Bytes) :
    Call.FailsClean see (h.mergeFragment fragment : Call σ StateError Unit) :=
  (Call.Quiet.ofExcept _).bind_failsClean fun key => (hs.merge _ key fragment).attempting _

theorem failsClean_add (hs : CleanStore see) (x : α) :
    Call.FailsClean see (h.add x : Call σ StateError Unit) :=
  (Call.Quiet.ofExcept _).bind_failsClean fun fragment => failsClean_mergeFragment hs fragment

/-- Every element is written before the merge is made. -/
theorem failsClean_addAll (hs : CleanStore see) (xs : List α) :
    Call.FailsClean see (h.addAll xs : Call σ StateError Unit) := by
  unfold addAll
  split
  · exact (Call.Quiet.of_eq fun _ => rfl).failsClean
  · exact (Call.Quiet.ofExcept _).bind_failsClean fun fragment =>
      failsClean_mergeFragment hs fragment

/-- A delete is all there is to clearing. -/
theorem failsClean_clear (hs : CleanStore see) :
    Call.FailsClean see (h.clear : Call σ StateError Unit) :=
  (Call.Quiet.ofExcept _).bind_failsClean fun key => (hs.delete _ key).attempting _

/-- An update is one put or one delete, behind everything that may be refused. -/
theorem failsClean_update (hs : CleanStore see) (xs : List α) :
    Call.FailsClean see (h.update xs : Call σ StateError Unit) := by
  unfold update
  split
  · exact failsClean_clear hs
  · apply (Call.Quiet.ofExcept _).bind_failsClean
    intro key
    apply (Call.Quiet.ofExcept _).bind_failsClean
    intro bs
    exact (hs.put _ key bs).attempting _

/-- The visitor acts on a state of its own. -/
theorem quiet_forEach (hs : CleanStore see) (visit : α → Call τ StateError Unit) :
    Call.Quiet (fun p : σ × τ => see p.1) (h.forEach visit) := by
  apply (quiet_getRaw hs).onFirst.bind
  intro raw
  cases raw with
  | none => exact .of_eq fun _ => rfl
  | some bs => exact fun _ _ hp => ⟨hp, fun _ _ => trivial⟩

/-- A namespace can be found if it serializes and a key is set. -/
theorem keyInNamespace_eq_ok {ns : Part} {key : Bytes} (hkey : h.keyInNamespace ns = .ok key) :
    (∃ bs, ns.serialize = .ok bs) ∧ h.context.current ≠ none := by
  obtain ⟨bs, hbs, hkey⟩ := bind_eq_ok hkey
  refine ⟨⟨bs, hbs⟩, ?_⟩
  intro hnone
  rw [StateContext.keyIn, hnone] at hkey
  cases hkey

/-- Nothing is moved unless every namespace is found first. -/
theorem quiet_mergeNamespaces {target : Part} {sources : List Part}
    (hlost : h.context.current = none ∨ ∃ ns ∈ target :: sources, ∀ bs, ns.serialize ≠ .ok bs) :
    Call.Quiet see (h.mergeNamespaces target sources : Call σ StateError MoveStats) := by
  unfold mergeNamespaces
  split
  · exact .of_eq fun _ => rfl
  · intro v
    apply (Call.Keeps.ofExcept _).bind
    intro targetKey htarget
    apply (Call.Keeps.ofExcept _).bind
    intro sourceKeys hsources
    -- every namespace was found, so none of the causes applies
    exfalso
    obtain ⟨htarget, hcurrent⟩ := keyInNamespace_eq_ok htarget
    rcases hlost with hnone | ⟨ns, hns, hfails⟩
    · exact hcurrent hnone
    · have hfound : ∃ bs, ns.serialize = .ok bs := by
        rcases List.mem_cons.1 hns with rfl | hns
        · exact htarget
        · obtain ⟨key, hkey⟩ := mapM_isOk_iff.1 ⟨_, hsources⟩ ns hns
          exact (keyInNamespace_eq_ok hkey).1
      obtain ⟨bs, hbs⟩ := hfound
      exact hfails bs hbs

end ListState

/-! ### Desks -/

/-- A handle on a backend, and what else its holder has. -/
structure Desk (σ α τ : Type) where
  /-- The backend. -/
  backend : Backend σ
  /-- The handle. -/
  handle : ListState α
  /-- What visitors of lists act on. -/
  own : τ

namespace Desk

/-- Point the handle elsewhere. -/
def point (move : ListState α → Except StateError (ListState α)) :
    Call (Desk σ α τ) StateError (ListReply α) := fun d =>
  match move d.handle with
  | .ok handle => (.ok .done, { d with handle })
  | .error e => (.error e, d)

/-- Call the store through the handle. -/
def ask (reply : β → ListReply α) (call : ListState α → Call σ StateError β) :
    Call (Desk σ α τ) StateError (ListReply α) := fun d =>
  let (r, backend) := Backend.onStore (call d.handle) d.backend
  (r.map reply, { d with backend })

end Desk

/-- A call on a handle, visits of the elements included. -/
inductive HandleCall (α τ : Type) where
  /-- Any other call. -/
  | list (c : ListCall α)
  /-- Visit the elements one at a time. -/
  | forEach (visit : α → Call τ StateError Unit)

namespace HandleCall

variable [Store σ]

/-- The call. -/
def run : HandleCall α τ → Call (Desk σ α τ) StateError (ListReply α)
  | .list (.setKey key) => Desk.point fun h => h.setKey key
  | .list (.setNamespace ns) => Desk.point fun h => h.setNamespace ns
  | .list (.add x) => Desk.ask (fun () => .done) fun h => h.add x
  | .list (.addAll xs) => Desk.ask (fun () => .done) fun h => h.addAll xs
  | .list (.update xs) => Desk.ask (fun () => .done) fun h => h.update xs
  | .list .clear => Desk.ask (fun () => .done) fun h => h.clear
  | .list (.mergeNamespaces target sources) => Desk.ask .moved fun h =>
    h.mergeNamespaces target sources
  | .list .get => Desk.ask .list fun h => h.get
  | .list .getRaw => Desk.ask .raw fun h => h.getRaw
  | .forEach visit => fun d =>
    let (r, store, own) := d.handle.forEach visit (d.backend.store, d.own)
    (r.map fun () => .done, { d with backend := { d.backend with store }, own })

/-- Whether the call moves no list: it is not a move between namespaces, or it is one that does not
find them all. -/
def MovesNothing (h : ListState α) : HandleCall α τ → Prop
  | .list (.mergeNamespaces target sources) =>
    h.context.current = none ∨ ∃ ns ∈ target :: sources, ∀ bs, ns.serialize ≠ .ok bs
  | _ => True

end HandleCall

/-! ### Failures leave no trace -/

/-- What can be seen of a desk but for what its holder has besides: the handle, the backend, and of
its store what `see` shows. -/
def Desk.view (see : σ → γ) (d : Desk σ α τ) :
    ListState α × γ × KeyBuilder × BackendConfig × Registry :=
  (d.handle, see d.backend.store, d.backend.builder, d.backend.config, d.backend.registry)

section

variable {see : σ → γ} {d d' : Desk σ α τ} {e : StateError}

/-- A handle that is not pointed elsewhere points where it did. -/
theorem Desk.point_error {move : ListState α → Except StateError (ListState α)}
    (h : Desk.point move d = (.error e, d')) : d' = d := by
  unfold point at h
  split at h
  · cases h
  · exact (Prod.mk.inj h).2.symm

/-- A call that is asked for and fails leaves no more traces at the desk than in the store. -/
theorem Desk.ask_error {reply : β → ListReply α} {call : ListState α → Call σ StateError β}
    (h : Desk.ask reply call d = (.error e, d')) (hcall : Call.FailsClean see (call d.handle)) :
    d'.view see = d.view see := by
  rcases hrun : call d.handle d.backend.store with ⟨cause | b, store⟩
  · simp only [ask, Backend.onStore, hrun] at h
    obtain ⟨-, rfl⟩ := Prod.mk.inj h
    simp only [view, hcall _ cause store hrun]
  · simp only [ask, Backend.onStore, hrun] at h
    cases h

variable [Store σ]

/-- A call that fails changes nothing that can be seen, if it moves nothing. -/
theorem HandleCall.run_error (hs : CleanStore see) {c : HandleCall α τ}
    (hc : c.MovesNothing d.handle) (h : c.run d = (.error e, d')) : d'.view see = d.view see := by
  cases c with
  | forEach visit =>
    -- a visit only reads from the store, and what the visitor owns is not looked at
    have hquiet :=
      (ListState.quiet_forEach (h := d.handle) hs visit).view_eq (d.backend.store, d.own)
    rcases hrun : d.handle.forEach visit (d.backend.store, d.own) with ⟨r, store, own⟩
    rw [hrun] at hquiet
    simp only [run, hrun] at h
    obtain ⟨-, rfl⟩ := Prod.mk.inj h
    simp only [Desk.view, hquiet]
  | list c =>
    -- pointing elsewhere makes no call, writing fails without a trace, reading leaves none
    cases c <;> rw [run] at h
    case setKey key => rw [Desk.point_error h]
    case setNamespace ns => rw [Desk.point_error h]
    case add x => exact Desk.ask_error h (ListState.failsClean_add hs x)
    case addAll xs => exact Desk.ask_error h (ListState.failsClean_addAll hs xs)
    case update xs => exact Desk.ask_error h (ListState.failsClean_update hs xs)
    case clear => exact Desk.ask_error h (ListState.failsClean_clear hs)
    case mergeNamespaces target sources =>
      exact Desk.ask_error h (ListState.quiet_mergeNamespaces hc).failsClean
    case get => exact Desk.ask_error h (ListState.quiet_get hs).failsClean
    case getRaw => exact Desk.ask_error h (ListState.quiet_getRaw hs).failsClean

end

/-- A call on a list handle that fails leaves no trace, in whatever state the backend is: the handle
points where it did, and memory stores have the same values and the same operands, log stores the
same log besides. Moves between namespaces are excepted, unless it is the namespaces or the key
that they fail for. -/
theorem failed_call_leaves_no_trace (c : HandleCall α τ) (e : StateError) :
    (∀ d d' : Desk MemoryStore α τ, c.MovesNothing d.handle → c.run d = (.error e, d') →
      d'.handle = d.handle ∧ d'.backend = { d.backend with
        store := { d.backend.store with nextVersion := d'.backend.store.nextVersion } }) ∧
    ∀ d d' : Desk LogStore α τ, c.MovesNothing d.handle → c.run d = (.error e, d') →
      d'.handle = d.handle ∧ d'.backend = d.backend := by
  constructor
  · rintro d ⟨⟨⟨partitions, nextVersion, closed⟩, builder, config, registry⟩, handle, own⟩ hc h
    have hview := HandleCall.run_error MemoryStore.cleanStore hc h
    simp only [Desk.view, MemoryStore.stored, Prod.mk.injEq] at hview
    obtain ⟨rfl, ⟨rfl, rfl⟩, rfl, rfl, rfl⟩ := hview
    exact ⟨rfl, rfl⟩
  · rintro d ⟨⟨store, builder, config, registry⟩, handle, own⟩ hc h
    have hview := HandleCall.run_error LogStore.cleanStore hc h
    simp only [Desk.view, id, Prod.mk.injEq] at hview
    obtain ⟨rfl, rfl, rfl, rfl, rfl⟩ := hview
    exact ⟨rfl, rfl⟩

/-- Two stamped numbers and a text, appended to a list with two operands; and two numbers that
together are too long for the log. -/
theorem failed_append_leaves_no_trace :
    let codec := (CodecSpec.stamped .uint64).codec
    let context : StateContext :=
      { StateContext.fresh "s" (KeyBuilder.composite 128) 128 with current := some ⟨0, [1]⟩ }
    let unfit : HandleCall Item Unit := .list (.addAll
      [.stamped (.uint64 1) 7, .stamped (.uint64 2) 8, .stamped (.text "x") 9])
    let memory : Desk MemoryStore Item Unit :=
      ⟨⟨Foreground.runAll [.change (.create "s" (some (.stringAppend delimiter))),
          .change (.merge "s" [0, 0, 0, 0, 1, 1] [5]), .change (.merge "s" [0, 0, 0, 0, 1, 1] [6])]
        MemoryStore.empty, KeyBuilder.composite 128, .default, Table.empty⟩, ⟨context, codec⟩, ()⟩
    let long : HandleCall Item Unit := .list (.addAll
      [.stamped (.uint64 1) 7, .stamped (.uint64 2) 8])
    let log : Desk LogStore Item Unit :=
      ⟨⟨(LogStore.logThenApply (.create "s" (some (.stringAppend delimiter)))
          (LogStore.onFile ⟨"state", 2, true, 40⟩ logHeader MemoryStore.empty 0 false)).2,
        KeyBuilder.composite 128, .default, Table.empty⟩, ⟨context, codec⟩, ()⟩
    (∃ d', unfit.run memory = (.error (.invalidArgument (.unfitItem "u64")), d') ∧
      d'.handle = memory.handle ∧ d'.backend = { memory.backend with
        store := { memory.backend.store with nextVersion := d'.backend.store.nextVersion } }) ∧
    ∃ d', long.run log = (.error (.access .appendingToList (.entryRefused 55 40)), d') ∧
      d'.handle = log.handle ∧ d'.backend = log.backend := by
  intro codec context unfit memory long log
  have hunfit : (unfit.run memory).1 = .error (.invalidArgument (.unfitItem "u64")) := by
    decide +kernel
  have hlong : (long.run log).1 = .error (.access .appendingToList (.entryRefused 55 40)) := by
    decide +kernel
  constructor
  · rcases hrun : unfit.run memory with ⟨r, d'⟩
    rw [hrun] at hunfit
    obtain rfl : r = _ := hunfit
    exact ⟨d', rfl, (failed_call_leaves_no_trace unfit _).1 _ _ trivial hrun⟩
  · rcases hrun : long.run log with ⟨r, d'⟩
    rw [hrun] at hlong
    obtain rfl : r = _ := hlong
    exact ⟨d', rfl, (failed_call_leaves_no_trace long _).2 _ _ trivial hrun⟩

end AppendLists
