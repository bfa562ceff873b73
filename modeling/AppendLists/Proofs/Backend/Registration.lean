import AppendLists.Backend.Snapshot
import AppendLists.Codec.Fixed
import AppendLists.Proofs.Call
import AppendLists.Proofs.Store.Merging

namespace AppendLists

/-!
# Registrations and ways of merging

A list state appends by merging, and whether its partition merges was settled when the partition was
created: by whoever was there first, for a state of whatever kind. Registering a state only asks
whether there is a partition. So what decides whether a registered list can be appended to is where
its partition comes from.

* `Settles`: what registrations can do to the partitions of a store;
* `Registration`, `Backends`: registrations on several backends over one store;
* `Backends.Origin`, `Backends.run_origin`: where the partition of a name comes from;
* `ListState.AppendsBy`, `ListState.Refuses`: what appends through a handle come to;
* `Backends.registered_list`: what appends through a new handle come to;
* `Backends.restored_list_refuses`: a registered list that cannot be appended to.
-/

variable {α σ : Type} [Store σ] [Merging σ]

/-! ### What happens to partitions -/

/-- The partition of each name is as it was, or it is new and has the way of merging of the kind
that was asked for. -/
def Settles (asks : String → Option StateKind) (s s' : σ) : Prop :=
  ∀ name, (Store.has s' name = Store.has s name ∧ Merging.way s' name = Merging.way s name) ∨
    (Store.has s name = false ∧ Store.has s' name = true ∧ ∃ kind, asks name = some kind ∧
      Merging.way s' name = (Backend.operatorFor kind).or (Merging.way s name))

namespace Settles

variable {asks asks' : String → Option StateKind} {s s' s'' : σ}

/-- Without a creation nothing is settled anew. -/
theorem refl (asks : String → Option StateKind) (s : σ) : Settles asks s s :=
  fun _ => .inl ⟨rfl, rfl⟩

/-- No partition goes away. -/
theorem has (h : Settles asks s s') {name : String} (hname : Store.has s name = true) :
    Store.has s' name = true := by
  rcases h name with ⟨hsame, -⟩ | ⟨-, hnew, -⟩
  · rw [hsame, hname]
  · exact hnew

/-- Only what is asked for missing partitions matters. -/
theorem mono (h : Settles asks s s') (hasks : ∀ name kind, Store.has s name = false →
    asks name = some kind → asks' name = some kind) : Settles asks' s s' := by
  intro name
  rcases h name with hsame | ⟨hold, hnew, kind, hkind, hway⟩
  · exact .inl hsame
  · exact .inr ⟨hold, hnew, kind, hasks name kind hold hkind, hway⟩

/-- What is settled stays settled. -/
theorem trans (h : Settles asks s s') (h' : Settles asks s' s'') : Settles asks s s'' := by
  intro name
  rcases h' name with ⟨hhas', hway'⟩ | ⟨hold', hnew', hkind'⟩
  · rw [hhas', hway']
    exact h name
  · rcases h name with ⟨hhas, hway⟩ | ⟨-, hnew, -⟩
    · rw [hhas] at hold'
      rw [hway] at hkind'
      exact .inr ⟨hold', hnew', hkind'⟩
    · rw [hnew] at hold'
      cases hold'

end Settles

namespace Backend

variable {b b' : Backend σ}

/-- What a call can do to a backend that settles partitions and registers states: the states that it
registers have a partition. -/
structure Registers (asks : String → Option StateKind) (b b' : Backend σ) : Prop where
  /-- The partitions. -/
  settles : Settles asks b.store b'.store
  /-- The registered states. -/
  registered : ∀ name, (b'.registry.find? name).isSome →
    (b.registry.find? name).isSome ∨ Store.has b'.store name = true

/-- The kind that one state asks for. -/
def asksOne (name : String) (kind : StateKind) (name' : String) : Option StateKind :=
  if name' = name then some kind else none

/-- The kind that the first of several states asks for. -/
def asksFirst (infos : List StateMeta) (name : String) : Option StateKind :=
  (infos.find? fun info => info.name = name).map (·.kind)

/-- A partition that is ensured is there, unless the store has refused to create it. -/
theorem ensurePartition_cases (name : String) (kind : StateKind) (b : Backend σ) :
    ∃ s', Settles (asksOne name kind) b.store s' ∧
      ((∃ e, ensurePartition name kind b = (.error e, { b with store := s' })) ∨
        ensurePartition name kind b = (.ok (), { b with store := s' }) ∧
          Store.has s' name = true) := by
  unfold ensurePartition
  by_cases hname : Store.has b.store name = true
  · exact ⟨b.store, .refl _ _, .inr ⟨by rw [if_pos hname], hname⟩⟩
  · rw [if_neg hname]
    rcases hcreate : Store.create name (operatorFor kind) b.store with ⟨e | ⟨⟩, s'⟩
    · refine ⟨s', fun n => .inl (Merging.not_created hcreate n),
        .inl ⟨.access .creatingPartition e, ?_⟩⟩
      simp [onStore, Call.attempting, Call.mapError, hcreate]
    · have hcreated := Merging.created hcreate
      refine ⟨s', ?_, .inr ⟨?_, by simp [(hcreated name).1]⟩⟩
      · intro n
        obtain ⟨hhas, hway⟩ := hcreated n
        -- the partition that was missing is new, and its way of merging is that of the kind
        by_cases hn : n = name
        · subst hn
          rw [if_pos rfl] at hway
          exact .inr ⟨by simpa using hname, by simp [hhas], kind, if_pos rfl, hway⟩
        · rw [if_neg hn] at hway
          exact .inl ⟨by simp [hhas, hn], hway⟩
      · simp [onStore, Call.attempting, Call.mapError, hcreate]

/-- So are several that are ensured in turn, each by the first state of its name. -/
theorem ensurePartitions_cases (infos : List StateMeta) (b : Backend σ) :
    ∃ s', Settles (asksFirst infos) b.store s' ∧
      ((∃ e, ensurePartitions infos b = (.error e, { b with store := s' })) ∨
        ensurePartitions infos b = (.ok (), { b with store := s' }) ∧
          ∀ info ∈ infos, Store.has s' info.name = true) := by
  induction infos generalizing b with
  | nil => exact ⟨b.store, .refl _ _, .inr ⟨rfl, nofun⟩⟩
  | cons info infos ih =>
    rw [ensurePartitions]
    have hfirst : ∀ name kind, asksOne info.name info.kind name = some kind →
        asksFirst (info :: infos) name = some kind := by
      intro name kind h
      unfold asksOne at h
      split at h
      · case isTrue hname => simpa [asksFirst, hname] using h
      · cases h
    obtain ⟨s₁, hsettles₁, ⟨e, hrun⟩ | ⟨hrun, hhas⟩⟩ := ensurePartition_cases info.name info.kind b
    · exact ⟨s₁, hsettles₁.mono fun name kind _ => hfirst name kind,
        .inl ⟨e, Call.bind_of_error hrun _⟩⟩
    · rw [Call.bind_of_ok hrun]
      obtain ⟨s₂, hsettles₂, hcases⟩ := ih { b with store := s₁ }
      -- the others can only make partitions of other names
      have hothers : Settles (asksFirst (info :: infos)) s₁ s₂ := by
        apply hsettles₂.mono
        intro name kind hmissing h
        have hne : info.name ≠ name := by
          rintro rfl
          rw [hhas] at hmissing
          cases hmissing
        simpa [asksFirst, hne] using h
      refine ⟨s₂, (hsettles₁.mono fun name kind _ => hfirst name kind).trans hothers, ?_⟩
      rcases hcases with herror | ⟨hrest, hall⟩
      · exact .inl herror
      · exact .inr ⟨hrest, List.forall_mem_cons.2 ⟨hothers.has hhas, hall⟩⟩

omit [Merging σ] in
/-- A state needs a name. -/
theorem register_of_empty {b : Backend σ} {name : String} (hempty : name.isEmpty = true)
    (kind : StateKind) (codec : Descriptor) :
    register name kind codec b = (.error (.invalidArgument .emptyStateName), b) := by
  unfold register
  rw [if_pos hempty]
  rfl

omit [Merging σ] in
/-- A state that is known is found again, if its kind and codec are the same. -/
theorem register_of_found {b : Backend σ} {name : String} {info : StateMeta}
    (hempty : name.isEmpty = false) (hinfo : b.registry.find? name = some info) (kind : StateKind)
    (codec : Descriptor) :
    register name kind codec b
      = (do
          expectKind info kind
          expectCodec info codec
          return .fresh name b.builder b.config.maxParallelism, b) := by
  have hquery : Call.query (ε := StateError) (fun b : Backend σ => .ok b) b = (.ok b, b) := rfl
  unfold register
  simp only [hempty, Bool.false_eq_true, if_false]
  rw [Call.bind_of_ok hquery]
  simp only [hinfo]
  cases expectKind info kind with
  | error e => rfl
  | ok _ => cases expectCodec info codec <;> rfl

omit [Merging σ] in
/-- A state that is registered is reopened under its kind and codec, and refused under others. -/
theorem register_found_cases {b : Backend σ} {name : String} {info : StateMeta}
    (hempty : name.isEmpty = false) (hinfo : b.registry.find? name = some info) (kind : StateKind)
    (codec : Descriptor) :
    (∃ e, register name kind codec b = (.error e, b)) ∨ info.kind = kind ∧ info.codec = codec ∧
      register name kind codec b
        = (.ok (.fresh name b.builder b.config.maxParallelism), b) := by
  rw [register_of_found hempty hinfo]
  by_cases hkind : info.kind = kind
  · by_cases hcodec : info.codec = codec
    · refine .inr ⟨hkind, hcodec, ?_⟩
      rw [expectKind, if_pos hkind, expectCodec, if_pos hcodec]
      rfl
    · left
      rw [expectKind, if_pos hkind, expectCodec, if_neg hcodec]
      exact ⟨_, rfl⟩
  · left
    rw [expectKind, if_neg hkind]
    exact ⟨_, rfl⟩

omit [Merging σ] in
/-- One that is not known gets a partition, unless there is one of its name, and is recorded. -/
theorem register_of_missing {b : Backend σ} {name : String} (hempty : name.isEmpty = false)
    (hinfo : b.registry.find? name = none) (kind : StateKind) (codec : Descriptor) :
    register name kind codec b
      = (ensurePartition name kind >>= fun _ => record ⟨name, kind, codec⟩ >>= fun _ =>
          Call.answer (.fresh name b.builder b.config.maxParallelism)) b := by
  have hquery : Call.query (ε := StateError) (fun b : Backend σ => .ok b) b = (.ok b, b) := rfl
  unfold register
  simp only [hempty, Bool.false_eq_true, if_false]
  rw [Call.bind_of_ok hquery]
  simp only [hinfo]
  rfl

theorem Registers.refl (asks : String → Option StateKind) (b : Backend σ) : Registers asks b b :=
  ⟨.refl asks _, fun _ h => .inl h⟩

/-- A registration settles the partition of its state. One that succeeds leaves a registered state,
or finds one. -/
theorem register_registers (name : String) (kind : StateKind) (codec : Descriptor) (b : Backend σ) :
    Registers (asksOne name kind) b (register name kind codec b).2 ∧
      ∀ context b', register name kind codec b = (.ok context, b') → context.partition = name ∧
        ((b.registry.find? name).isSome ∨ Store.has b'.store name = true) := by
  cases hempty : name.isEmpty with
  -- without a name nothing is asked for
  | true =>
    rw [register_of_empty hempty]
    exact ⟨.refl _ b, nofun⟩
  | false =>
    cases hinfo : b.registry.find? name with
    | some info =>
      rw [register_of_found hempty hinfo]
      refine ⟨.refl _ b, ?_⟩
      intro context b' h
      obtain ⟨-, -, h⟩ := bind_eq_ok (Prod.mk.inj h).1
      obtain ⟨-, -, h⟩ := bind_eq_ok h
      obtain rfl := Except.ok.inj h
      exact ⟨rfl, .inl rfl⟩
    | none =>
      rw [register_of_missing hempty hinfo]
      -- a state that is not registered asks for a partition, and is recorded if there is one
      obtain ⟨s', hsettles, ⟨e, hrun⟩ | ⟨hrun, hhas⟩⟩ := ensurePartition_cases name kind b
      · rw [Call.bind_of_error hrun]
        exact ⟨⟨hsettles, fun _ h => .inl h⟩, nofun⟩
      · rw [Call.bind_of_ok hrun]
        refine ⟨⟨hsettles, ?_⟩, ?_⟩
        · -- the new binding has its partition, the others were there before
          intro n h
          by_cases hn : n = name
          · exact .inr (hn ▸ hhas)
          · left
            have hfind : ((b.registry.insert name ⟨name, kind, codec⟩).find? n).isSome := h
            simpa [hn] using hfind
        · rintro context b' h
          obtain ⟨hcontext, rfl⟩ := Prod.mk.inj h
          obtain rfl := Except.ok.inj hcontext
          exact ⟨rfl, .inr hhas⟩

/-- The states that a document lists, if it can be read. -/
def documented (document : Bytes) : List StateMeta :=
  match (Json.parse document).bind Registry.ofJson? with
  | some (_, infos) => infos
  | none => []

/-- Restoring asks for the partitions of the documented states, one after the other. -/
theorem restore_registers (document : Bytes) (b : Backend σ) :
    Registers (asksFirst (documented document)) b (restore document b).2 := by
  unfold restore documented
  cases (Json.parse document).bind Registry.ofJson? with
  | none => exact .refl _ b
  | some result =>
    obtain ⟨version, infos⟩ := result
    simp only
    by_cases hversion : version ≠ snapshotVersion
    · rw [if_pos hversion]
      exact .refl _ b
    · rw [if_neg hversion]
      -- the documented partitions are asked for before the registry is filled
      obtain ⟨s', hsettles, ⟨e, hrun⟩ | ⟨hrun, hhas⟩⟩ := ensurePartitions_cases infos b
      · rw [Call.bind_of_error hrun]
        exact ⟨hsettles, fun _ h => .inl h⟩
      · rw [Call.bind_of_ok hrun]
        refine ⟨hsettles, ?_⟩
        intro name h
        obtain ⟨info, hfind⟩ := Option.isSome_iff_exists.1 h
        obtain ⟨info', hmem, heq⟩ := List.mem_map.1 (Table.mem_of_find?_ofList hfind)
        obtain rfl : info'.name = name := (Prod.mk.inj heq).1
        exact .inr (hhas info' hmem)

end Backend

/-! ### Several backends over one store -/

/-- A call that registers states. -/
inductive Registration : Type 1 where
  /-- Register a list state. -/
  | list {α : Type} (name : String) (codec : Codec α)
  /-- Register a value state. -/
  | value {α : Type} (name : String) (codec : Codec α)
  /-- Replace the registered states by those of a document. -/
  | restore (document : Bytes)

namespace Registration

/-- The backend after the call, whether that succeeds or fails. -/
def after : Registration → Backend σ → Backend σ
  | .list name codec, b => (Backend.registerList name codec b).2
  | .value name codec, b => (Backend.registerValue name codec b).2
  | .restore document, b => (Backend.restore document b).2

/-- The kind for which the call makes the partition of a name, should it make one. -/
def asks : Registration → String → Option StateKind
  | .list name _ => Backend.asksOne name .list
  | .value name _ => Backend.asksOne name .value
  | .restore document => Backend.asksFirst (Backend.documented document)

end Registration

namespace Backend

/-- A handle to a list comes from a registration. -/
theorem registerList_registers (name : String) (codec : Codec α) (b : Backend σ) :
    Registers (asksOne name .list) b (registerList name codec b).2 ∧
      ∀ h b', registerList name codec b = (.ok h, b') →
        h.context.partition = name ∧ h.codec = codec ∧
          ((b.registry.find? name).isSome ∨ Store.has b'.store name = true) := by
  obtain ⟨hregisters, hok⟩ := register_registers name .list codec.descriptor b
  rcases hrun : register name .list codec.descriptor b with ⟨e | context, b'⟩
  · have hlist : registerList name codec b = (.error e, b') := Call.bind_of_error hrun _
    rw [hrun] at hregisters
    rw [hlist]
    exact ⟨hregisters, nofun⟩
  · have hlist : registerList name codec b = (.ok ⟨context, codec⟩, b') := Call.bind_of_ok hrun _
    rw [hrun] at hregisters
    rw [hlist]
    refine ⟨hregisters, ?_⟩
    rintro h b'' heq
    obtain ⟨hh, rfl⟩ := Prod.mk.inj heq
    obtain rfl := Except.ok.inj hh
    obtain ⟨hpartition, hhas⟩ := hok context b' hrun
    exact ⟨hpartition, rfl, hhas⟩

/-- Registering a value state asks for one partition. -/
theorem registerValue_registers (name : String) (codec : Codec α) (b : Backend σ) :
    Registers (asksOne name .value) b (registerValue name codec b).2 := by
  obtain ⟨hregisters, -⟩ := register_registers name .value codec.descriptor b
  rcases hrun : register name .value codec.descriptor b with ⟨e | context, b'⟩
  · have hvalue : registerValue name codec b = (.error e, b') := Call.bind_of_error hrun _
    rw [hrun] at hregisters
    rwa [hvalue]
  · have hvalue : registerValue name codec b = (.ok ⟨context, codec⟩, b') := Call.bind_of_ok hrun _
    rw [hrun] at hregisters
    rwa [hvalue]

end Backend

/-- Whatever is registered asks for its partitions and no others. -/
theorem Registration.after_registers (r : Registration) (b : Backend σ) :
    Backend.Registers r.asks b (r.after b) := by
  cases r with
  | list name codec => exact (Backend.registerList_registers name codec b).1
  | value name codec => exact Backend.registerValue_registers name codec b
  | restore document => exact Backend.restore_registers document b

/-- Backends over one store, by number. Their own stores do not count. -/
structure Backends (σ : Type) where
  /-- The store. -/
  store : σ
  /-- The backends. -/
  members : Nat → Backend Unit

namespace Backends

omit [Store σ] [Merging σ] in
/-- A backend as it sees itself. -/
def member (bs : Backends σ) (i : Nat) : Backend σ :=
  ⟨bs.store, (bs.members i).builder, (bs.members i).config, (bs.members i).registry⟩

/-- The backends after one of them has become `b`. -/
def become (bs : Backends σ) (i : Nat) (b : Backend σ) : Backends σ where
  store := b.store
  members j := if j = i then ⟨(), b.builder, b.config, b.registry⟩ else bs.members j

/-- The backends after registrations in turn, those that fail included. -/
def run : List (Nat × Registration) → Backends σ → Backends σ
  | [], bs => bs
  | (i, r) :: rs, bs => run rs (bs.become i (r.after (bs.member i)))

/-- Whether no state is registered yet. -/
def New (bs : Backends σ) : Prop := ∀ i, (bs.members i).registry = Table.empty

/-- Where the partition of a name comes from, and the way of merging it has from there: it was in
the store before the registrations, or one of them made it. -/
inductive Origin (bs : Backends σ) (rs : List (Nat × Registration)) (name : String) :
    Option MergeOperator → Prop where
  /-- The partition was there. -/
  | kept (hhas : Store.has bs.store name = true) : Origin bs rs name (Merging.way bs.store name)
  /-- The partition was made for a state of a kind. -/
  | made (before : List (Nat × Registration)) {later : List (Nat × Registration)} {i : Nat}
      {r : Registration} {kind : StateKind}
      (hrs : rs = before ++ (i, r) :: later)
      (hmissing : Store.has (run before bs).store name = false)
      (hmade : Store.has (run (before ++ [(i, r)]) bs).store name = true)
      (hasks : r.asks name = some kind) :
      Origin bs rs name ((Backend.operatorFor kind).or (Merging.way bs.store name))

variable {bs : Backends σ} {rs : List (Nat × Registration)} {name : String}

omit [Merging σ] in
theorem run_append (rs rs' : List (Nat × Registration)) (bs : Backends σ) :
    run (rs ++ rs') bs = run rs' (run rs bs) := by
  induction rs generalizing bs with
  | nil => rfl
  | cons r rs ih => exact ih _

/-- A registration settles partitions of the common store. -/
theorem become_settles (i : Nat) (r : Registration) (bs : Backends σ) :
    Settles r.asks bs.store (bs.become i (r.after (bs.member i))).store :=
  (r.after_registers (bs.member i)).settles

/-- A partition that is there stays there, with its way of merging. -/
theorem run_of_has (hname : Store.has bs.store name = true) (rs : List (Nat × Registration)) :
    Store.has (run rs bs).store name = true ∧
      Merging.way (run rs bs).store name = Merging.way bs.store name := by
  induction rs generalizing bs with
  | nil => exact ⟨hname, rfl⟩
  | cons r rs ih =>
    obtain ⟨i, r⟩ := r
    rcases become_settles i r bs name with ⟨hhas, hway⟩ | ⟨hmissing, -⟩
    · have hrest := ih (hhas.trans hname)
      rwa [hway] at hrest
    · rw [hname] at hmissing
      cases hmissing

/-- A registration that leaves a partition alone is none of its origins. -/
theorem Origin.cons {i : Nat} {r : Registration} {way : Option MergeOperator}
    (hhas : Store.has (bs.become i (r.after (bs.member i))).store name = Store.has bs.store name)
    (hway : Merging.way (bs.become i (r.after (bs.member i))).store name
      = Merging.way bs.store name)
    (h : Origin (bs.become i (r.after (bs.member i))) rs name way) :
    Origin bs ((i, r) :: rs) name way := by
  cases h with
  | kept hname =>
    rw [hway]
    exact .kept (hhas.symm.trans hname)
  | made before hrs hmissing hmade hasks =>
    rw [hway, hrs]
    exact .made ((i, r) :: before) rfl hmissing hmade hasks

/-- A partition that is there after registrations has the way of merging of its origin. -/
theorem run_origin (rs : List (Nat × Registration)) {bs : Backends σ}
    (hname : Store.has (run rs bs).store name = true) :
    Origin bs rs name (Merging.way (run rs bs).store name) := by
  -- the first registration makes the partition, or it is there before or made by a later one
  induction rs generalizing bs with
  | nil => exact .kept hname
  | cons r rs ih =>
    obtain ⟨i, r⟩ := r
    rcases become_settles i r bs name with ⟨hhas, hway⟩ | ⟨hmissing, hmade, kind, hasks, hway⟩
    · exact (ih hname).cons hhas hway
    · have hkeeps := (run_of_has hmade rs).2
      rw [hway] at hkeeps
      rw [run, hkeeps]
      exact .made [] rfl hmissing hmade hasks

/-- Every registered state of every backend keeps having a partition. -/
theorem run_covered (hcovered : ∀ i name, ((bs.members i).registry.find? name).isSome →
      Store.has bs.store name = true) (rs : List (Nat × Registration)) :
    ∀ i name, (((run rs bs).members i).registry.find? name).isSome →
      Store.has (run rs bs).store name = true := by
  induction rs generalizing bs with
  | nil => exact hcovered
  | cons r rs ih =>
    obtain ⟨i, r⟩ := r
    have hregisters := r.after_registers (bs.member i)
    apply ih
    intro j name h
    -- the backend that registers may have a new state, the others have not
    by_cases hj : j = i
    · subst hj
      simp only [become, if_true] at h
      rcases hregisters.registered name h with hold | hnew
      · exact hregisters.settles.has (hcovered j name hold)
      · exact hnew
    · simp only [become, if_neg hj] at h
      exact hregisters.settles.has (hcovered j name h)

end Backends

/-! ### Appending through handles -/

namespace ListState

variable {h : ListState α} {s s' : σ} {call : Call σ StateError Unit} {fragment : Bytes}

/-- The calls that append items that have an encoding, with the bytes that they append. -/
inductive Appending (h : ListState α) : Call σ StateError Unit → Bytes → Prop where
  /-- One item. -/
  | one {x : α} {fragment : Bytes} (hencode : h.codec.encode x = .ok fragment) :
      Appending h (h.add x) fragment
  /-- Several items. -/
  | several {xs : List α} {fragment : Bytes} (hne : xs ≠ [])
      (hencode : encodeList h.codec xs = .ok fragment) : Appending h (h.addAll xs) fragment

/-- Appends are not refused for want of a way of merging, and those that succeed leave the bytes
that `op` makes of what was there and what is appended. -/
def AppendsBy (op : MergeOperator) (h : ListState α) (s : σ) : Prop :=
  ∀ call fragment, h.Appending call fragment →
    (∀ attempt name, (call s).1 ≠ .error (.access attempt (.mergeNotSupported name))) ∧
      ∀ s' : σ, call s = (.ok (), s') → ∃ value, (h.getRaw s).1 = .ok value ∧
        (h.getRaw s').1 = .ok (some (op.fullMerge value [fragment]))

/-- Appends are refused for want of a way of merging. -/
def Refuses (h : ListState α) (s : σ) : Prop :=
  ∀ call fragment, h.Appending call fragment →
    (call s).1 = .error (.access .appendingToList (.mergeNotSupported h.context.partition))

omit [Merging σ] in
/-- What appends is one merge of what was written. -/
theorem Appending.eq_mergeFragment (hcall : h.Appending call fragment) :
    call = h.mergeFragment fragment := by
  cases hcall with
  | one hencode =>
    rw [add, hencode]
    rfl
  | several hne hencode =>
    rw [addAll, if_neg (by simpa using hne), hencode]
    rfl

/-- A partition with a way of merging is appended to by it. -/
theorem appendsBy_of_way {op : MergeOperator} (hway : Merging.way s h.context.partition = some op) :
    h.AppendsBy op s := by
  intro call fragment hcall
  rw [hcall.eq_mergeFragment, mergeFragment]
  cases hkey : h.context.storageKey with
  | error e =>
    -- without a key nothing is asked of the store
    have hnoKey : e = .keyNotSet := by
      unfold StateContext.storageKey StateContext.keyIn at hkey
      split at hkey
      · cases hkey
      · exact (Except.error.inj hkey).symm
    subst hnoKey
    exact ⟨fun _ _ h => (by cases h), fun _ h => (by cases h)⟩
  | ok key =>
    have hsupported := Merging.merge_supported hway key fragment
    have hread : ∀ s : σ, (h.getRaw s).1
        = ((Store.get h.context.partition key).attempting .readingList s).1 := by
      intro s
      rw [getRaw, hkey]
      rfl
    show (∀ attempt name, ((Store.merge h.context.partition key fragment).attempting
      .appendingToList s).1 ≠ _) ∧ ∀ s', (Store.merge h.context.partition key fragment).attempting
        .appendingToList s = _ → _
    rcases hmerge : Store.merge h.context.partition key fragment s with ⟨e | ⟨⟩, s₁⟩
    · rw [hmerge] at hsupported
      simp only [Call.attempting, Call.mapError, hmerge]
      refine ⟨?_, fun _ h => (by cases h)⟩
      intro attempt name heq
      obtain ⟨-, rfl⟩ := StateError.access.inj (Except.error.inj heq)
      exact hsupported name rfl
    · obtain ⟨value, hbefore, hafter⟩ := Merging.get_of_merge hway hmerge
      simp only [Call.attempting, Call.mapError, hmerge]
      refine ⟨fun _ _ h => (by cases h), ?_⟩
      rintro s' heq
      obtain rfl := (Prod.mk.inj heq).2
      refine ⟨value, ?_, ?_⟩
      · rw [hread]
        rcases hget : Store.get h.context.partition key s with ⟨r, s₂⟩
        rw [hget] at hbefore
        obtain rfl : r = .ok value := hbefore
        rw [Call.attempting_of_ok .readingList hget]
      · rw [hread]
        rcases hget : Store.get h.context.partition key s₁ with ⟨r, s₂⟩
        rw [hget] at hafter
        obtain rfl : r = .ok (some (op.fullMerge value [fragment])) := hafter
        rw [Call.attempting_of_ok .readingList hget]

/-- A partition without one refuses appends. -/
theorem refuses_of_no_way (hclosed : Merging.closed s = false)
    (hhas : Store.has s h.context.partition = true)
    (hway : Merging.way s h.context.partition = none) (hkey : h.context.current.isSome) :
    h.Refuses s := by
  intro call fragment hcall
  obtain ⟨key, hcurrent⟩ := Option.isSome_iff_exists.1 hkey
  have hrefused := Merging.merge_refused hclosed hhas hway
    (h.context.builder key.group key.bytes h.context.ns) fragment
  rw [hcall.eq_mergeFragment, mergeFragment, StateContext.storageKey, StateContext.keyIn, hcurrent]
  show ((Store.merge _ _ fragment).attempting .appendingToList s).1 = _
  rcases hmerge : Store.merge h.context.partition
    (h.context.builder key.group key.bytes h.context.ns) fragment s with ⟨r, s₁⟩
  rw [hmerge] at hrefused
  obtain rfl : r = .error (.mergeNotSupported h.context.partition) := hrefused
  simp only [Call.attempting, Call.mapError, hmerge]

end ListState

namespace Backends

/-- **Whether a registered list can be appended to is decided by where its partition comes from.**
After any registrations on new backends over a store, a list state is registered. Then its partition
is there, with the way of merging of its origin: as it was before them, or as the registration
wanted it that made it. Through every handle to the state, appends combine in that way, and are
never refused for want of one; or else, as long as the store is open, they are always refused. -/
theorem registered_list {bs : Backends σ} (hnew : bs.New) (rs : List (Nat × Registration)) (i : Nat)
    (name : String) (codec : Codec α) {h : ListState α} {b : Backend σ}
    (hlist : Backend.registerList name codec ((run rs bs).member i) = (.ok h, b)) :
    h.context.partition = name ∧ h.codec = codec ∧ Store.has b.store name = true ∧
      Origin bs (rs ++ [(i, .list name codec)]) name (Merging.way b.store name) ∧
      ∀ h' : ListState α, h'.context.partition = name →
        (∀ op, Merging.way b.store name = some op → h'.AppendsBy op b.store) ∧
          (Merging.way b.store name = none → Merging.closed b.store = false →
            h'.context.current.isSome → h'.Refuses b.store) := by
  obtain ⟨hregisters, hok⟩ := Backend.registerList_registers name codec ((run rs bs).member i)
  obtain ⟨hpartition, hcodec, hcases⟩ := hok h b hlist
  rw [hlist] at hregisters
  have hstart : ∀ j n, ((bs.members j).registry.find? n).isSome → Store.has bs.store n = true := by
    intro j n hfind
    rw [hnew j] at hfind
    cases hfind
  have hcovered := run_covered hstart rs
  have hhas : Store.has b.store name = true := by
    -- a state that is registered has its partition from the registration before
    rcases hcases with hfound | hmade
    · exact hregisters.settles.has (hcovered i name hfound)
    · exact hmade
  have hstore : (run (rs ++ [(i, .list name codec)]) bs).store = b.store := by
    rw [run_append, run, run, become, Registration.after, hlist]
  have horigin := run_origin (rs ++ [(i, .list name codec)]) (hstore ▸ hhas)
  rw [hstore] at horigin
  refine ⟨hpartition, hcodec, hhas, horigin, ?_⟩
  rintro h' rfl
  constructor
  · intro op hway
    exact ListState.appendsBy_of_way hway
  · intro hway hclosed hkey
    exact ListState.refuses_of_no_way hclosed hhas hway hkey

/-- A value state, restored from a snapshot in which its name belongs to a list. -/
theorem restored_list_refuses :
    let bs : Backends MemoryStore :=
      ⟨MemoryStore.empty,
        fun _ => ⟨(), KeyBuilder.composite 128, BackendConfig.default, Table.empty⟩⟩
    let document := Utf8.encode (Registry.snapshot [⟨"s", .list, Codec.u64.descriptor⟩])
    let rs : List (Nat × Registration) := [(0, .value "s" Codec.u64), (0, .restore document)]
    bs.New ∧ ∃ h b h', Backend.registerList "s" Codec.u64 ((run rs bs).member 0) = (.ok h, b) ∧
      h.setKey .unit = .ok h' ∧ b.store.closed = false ∧
      (h'.add 7 b.store).1 = .error (.access .appendingToList (.mergeNotSupported "s")) := by
  intro bs document rs
  have hnew : bs.New := fun _ => rfl
  have hrun : ((Backend.registerList "s" Codec.u64 ((run rs bs).member 0)).1.isOk,
      (Backend.registerList "s" Codec.u64 ((run rs bs).member 0)).2.store)
        = (true, MemoryStore.empty.setPartition "s" ⟨none, Table.empty⟩) := by decide +kernel
  rcases hlist : Backend.registerList "s" Codec.u64 ((run rs bs).member 0) with ⟨e | h, b⟩
  · rw [hlist] at hrun
    cases congrArg Prod.fst hrun
  · rw [hlist] at hrun
    have hstore : b.store = MemoryStore.empty.setPartition "s" ⟨none, Table.empty⟩ :=
      congrArg Prod.snd hrun
    obtain ⟨hpartition, hcodec, -, -, happends⟩ := registered_list hnew rs 0 "s" Codec.u64 hlist
    have hclosed : b.store.closed = false := by rw [hstore]; rfl
    have hway : Merging.way b.store "s" = none := by rw [hstore]; rfl
    have hcodec' : (Codec.u64.encode 7) = .ok [0, 0, 0, 0, 0, 0, 0, 7] := rfl
    rw [← hcodec] at hcodec'
    let current : CurrentKey := ⟨keyGroup [0xC0] h.context.maxParallelism, [0xC0]⟩
    let h' : ListState UInt64 := { h with context := { h.context with current := some current } }
    have hkey : h.setKey .unit = .ok h' := rfl
    have hrefused := (happends h' hpartition).2 hway hclosed rfl _ _ (.one hcodec')
    refine ⟨hnew, h, b, h', rfl, hkey, hclosed, hrefused.trans ?_⟩
    rw [show h'.context.partition = "s" from hpartition]

end Backends

end AppendLists
