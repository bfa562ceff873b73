import AppendLists.Proofs.ListFormat.Grammar
import AppendLists.Proofs.Store.Told
import AppendLists.State.Value

namespace AppendLists

/-!
# Single values

A value is stored as its codec writes it, and what is read as a value has to fill what is stored. A
handle calls the store once, after it has found its storage key.

* `decodeValue_eq_ok_iff`, `decodeValue_eq_error`: stored bytes and what is read from them;
* `Codec.Conforming.decodeValue_of_encode`, `Codec.Strict.decodeValue_eq_ok_iff`: what a conforming
  codec reads, and what one that reads nothing else reads;
* `ValueState.value_of_no_key`, `update_of_no_key`, `clear_of_no_key`: handles without a key;
* `ValueState.value_of_get`, `value_of_get_none`, `value_of_strict`: reading through a handle;
* `ValueState.keeps_value`, `update_run`, `clear_run`: what the calls of a handle do to the contents
  of a store.
-/

variable {α σ : Type}

/-! ### Stored bytes -/

section

variable {codec : Codec α} {bs : Bytes} {x : α}

/-- A value is one element that takes up all the bytes. -/
theorem decodeValue_eq_ok_iff :
    decodeValue codec bs = .ok x ↔
      ∃ c, codec.decode (Cursor.ofBytes bs) = .ok (x, c) ∧ c.rest = [] := by
  unfold decodeValue
  constructor
  · intro h
    obtain ⟨⟨y, c⟩, hdecode, hend⟩ := bind_eq_ok h
    simp only at hend
    split at hend
    · case isTrue hempty =>
      obtain rfl := Except.ok.inj hend
      exact ⟨c, hdecode, Cursor.isEmpty_iff.1 hempty⟩
    · cases hend
  · rintro ⟨c, hdecode, hrest⟩
    rw [hdecode]
    exact if_pos (Cursor.isEmpty_iff.2 hrest)

/-- Bytes that are not read as a value are refused by the codec, or some are left over. -/
theorem decodeValue_eq_error {e : StateError} (h : decodeValue codec bs = .error e) :
    codec.decode (Cursor.ofBytes bs) = .error e ∨ ∃ n, e = .corrupt (.trailing n) := by
  rcases bind_eq_error h with hdecode | ⟨⟨y, c⟩, -, hend⟩
  · exact .inl hdecode
  · simp only at hend
    split at hend
    · cases hend
    · exact .inr ⟨_, (Except.error.inj hend).symm⟩

/-- What is written for an item is read as the item. -/
theorem Codec.Conforming.decodeValue_of_encode (hc : codec.Conforming)
    (h : codec.encode x = .ok bs) : decodeValue codec bs = .ok x := by
  obtain ⟨-, hread⟩ := hc.reads_back x bs h
  refine decodeValue_eq_ok_iff.2 ⟨_, hread (Cursor.ofBytes bs) [] (by simp), ?_⟩
  rw [Cursor.rest_skip, Cursor.rest_ofBytes, List.drop_length]

/-- What a strict codec reads as an item is what it writes for the item. -/
theorem Codec.Strict.decodeValue_eq_ok_iff (hs : codec.Strict) :
    decodeValue codec bs = .ok x ↔ codec.encode x = .ok bs := by
  refine ⟨fun h => ?_, hs.conforming.decodeValue_of_encode⟩
  obtain ⟨c, hdecode, hrest⟩ := AppendLists.decodeValue_eq_ok_iff.1 h
  obtain ⟨written, hencode, hbs⟩ := hs.exactness _ _ _ hdecode
  rw [Cursor.rest_ofBytes, hrest, List.append_nil] at hbs
  rwa [hbs]

/-- Everything else is corrupt to it. -/
theorem Codec.Strict.corrupt_of_decodeValue (hs : codec.Strict) {e : StateError}
    (h : decodeValue codec bs = .error e) : ∃ reason, e = .corrupt reason := by
  rcases decodeValue_eq_error h with hdecode | ⟨n, rfl⟩
  · exact hs.corruption _ _ hdecode
  · exact ⟨_, rfl⟩

end

/-! ### Calls on handles -/

/-- What was decided without the store is taken from there. -/
theorem Call.bind_of_ofExcept {ε β γ : Type} {r : Except ε β} {b : β} (hr : r = .ok b)
    (next : β → Call σ ε γ) (s : σ) : (Call.ofExcept r >>= next) s = next b s := by
  subst hr
  rfl

namespace ValueState

section

variable {h : ValueState α} {s s' : σ} {key : Bytes}

/-- Without a key there is no storage key. -/
theorem keyNotSet_of_no_key {β : Type} (hkey : h.context.current = none)
    (next : Bytes → Call σ StateError β) :
    (Call.ofExcept h.context.storageKey >>= next) s = (.error .keyNotSet, s) := by
  have hnone : h.context.storageKey = .error .keyNotSet := by
    rw [StateContext.storageKey, StateContext.keyIn, hkey]
  exact Call.bind_of_error (by rw [hnone]; rfl) _

variable [Store σ]

/-- Every call needs a key. -/
theorem value_of_no_key (hkey : h.context.current = none) : h.value s = (.error .keyNotSet, s) :=
  keyNotSet_of_no_key hkey _

theorem update_of_no_key (hkey : h.context.current = none) (x : α) :
    h.update x s = (.error .keyNotSet, s) := keyNotSet_of_no_key hkey _

theorem clear_of_no_key (hkey : h.context.current = none) : h.clear s = (.error .keyNotSet, s) :=
  keyNotSet_of_no_key hkey _

/-- Where nothing is stored there is no value. -/
theorem value_of_get_none (hkey : h.context.storageKey = .ok key)
    (hget : Store.get h.context.partition key s = (.ok none, s')) : h.value s = (.ok none, s') := by
  unfold value
  rw [Call.bind_of_ofExcept hkey, Call.bind_of_ok (Call.attempting_of_ok .readingValue hget)]
  rfl

/-- A stored value is read as a whole. -/
theorem value_of_get {bs : Bytes} (hkey : h.context.storageKey = .ok key)
    (hget : Store.get h.context.partition key s = (.ok (some bs), s')) :
    h.value s = ((decodeValue h.codec bs).map some, s') := by
  unfold value
  rw [Call.bind_of_ofExcept hkey, Call.bind_of_ok (Call.attempting_of_ok .readingValue hget)]
  show ((some ·) <$> Call.ofExcept (decodeValue h.codec bs)) s' = _
  cases decodeValue h.codec bs <;> rfl

/-- To a strict codec stored bytes are the item that they are written for, or corrupt. -/
theorem value_of_strict {bs : Bytes} (hs : h.codec.Strict) (hkey : h.context.storageKey = .ok key)
    (hget : Store.get h.context.partition key s = (.ok (some bs), s')) :
    (∀ x, h.value s = (.ok (some x), s') ↔ h.codec.encode x = .ok bs) ∧
      ((∀ x, h.codec.encode x ≠ .ok bs) →
        ∃ reason, h.value s = (.error (.corrupt reason), s')) := by
  rw [value_of_get hkey hget]
  cases hdecode : decodeValue h.codec bs with
  | error e =>
    obtain ⟨reason, rfl⟩ := hs.corrupt_of_decodeValue hdecode
    refine ⟨fun x => ⟨nofun, fun hencode => ?_⟩, fun _ => ⟨reason, rfl⟩⟩
    rw [hs.decodeValue_eq_ok_iff.2 hencode] at hdecode
    cases hdecode
  | ok y =>
    refine ⟨fun x => ?_, fun hnone => (hnone y (hs.decodeValue_eq_ok_iff.1 hdecode)).elim⟩
    rw [← hs.decodeValue_eq_ok_iff, hdecode]
    simp [Except.map]

end

section

variable [Store σ] [Told σ] {h : ValueState α} {s : σ}

open Told

/-- Reading keeps everything. -/
theorem keeps_value (P : σ → Prop) : Call.Keeps P h.value fun _ => True := by
  apply (Call.Keeps.ofExcept _).bind
  intro key _
  have hget : Call.Keeps P (Store.get h.context.partition key) fun _ => True := fun s hs =>
    ⟨by rwa [get_snd], fun _ _ => trivial⟩
  apply (hget.attempting _).bind
  intro raw _
  cases raw with
  | none => exact .answer trivial
  | some bs => exact (Call.Keeps.ofExcept (decodeValue h.codec bs)).answered fun _ _ => trivial

/-- An update of a handle with a key stores what is written for the item, and fails if nothing
is. -/
theorem update_run (hs : Sound s) (hname : ((see s).operator h.context.partition).isSome)
    {key : Bytes} (hkey : h.context.storageKey = .ok key) (x : α) :
    (∃ e, h.codec.encode x = .error e ∧ h.update x s = (.error e, s)) ∨
      ∃ bs s', h.codec.encode x = .ok bs ∧ h.update x s = (.ok (), s') ∧ Sound s' ∧
        see s' = (see s).setValue h.context.partition key (some bs) := by
  unfold update
  rw [Call.bind_of_ofExcept hkey]
  cases hencode : h.codec.encode x with
  | error e => exact .inl ⟨e, rfl, rfl⟩
  | ok bs =>
    obtain ⟨s', hput, hsee, hs'⟩ := put_run hs hname key bs
    exact .inr ⟨bs, s', rfl, Call.attempting_of_ok .updatingValue hput, hs', hsee⟩

/-- Clearing deletes the stored bytes. -/
theorem clear_run (hs : Sound s) (hname : ((see s).operator h.context.partition).isSome)
    {key : Bytes} (hkey : h.context.storageKey = .ok key) :
    ∃ s', h.clear s = (.ok (), s') ∧ Sound s' ∧
      see s' = (see s).setValue h.context.partition key none := by
  obtain ⟨s', hdelete, hsee, hs'⟩ := delete_run hs hname key
  refine ⟨s', ?_, hs', hsee⟩
  unfold clear
  rw [Call.bind_of_ofExcept hkey]
  exact Call.attempting_of_ok .clearingValue hdelete

end

end ValueState

end AppendLists
