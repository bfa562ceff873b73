import AppendLists.Codec.Fixed
import AppendLists.Codec.Stamped
import AppendLists.MessagePack.Format

namespace AppendLists

/-!
# Writes that only append

A codec is handed the whole buffer, but every codec of the library puts what it writes behind what is
there. It does not matter to it what that is, and nothing is lost if it fails, although a part of the
element may stay behind.

* `Codec.Spares`: a buffer that a codec leaves alone: the empty one, and every one if it is
  `Codec.Appending` and `Codec.Keeping` (`Codec.Appending.spares`);
* `Codec.WritesForm`: codecs that append a form they know as a whole; they are `Codec.Appending` and
  `Codec.Keeping`;
* `Codec.Appending.stamped`, `Codec.Appending.embed` and the same of `Codec.Keeping`: the ways codecs
  are made.
-/

namespace Codec

variable {α β : Type} {codec : Codec α}

/-! ### What becomes of the buffer -/

/-- An element is put where it is written. -/
theorem put_eq_ok_iff {x : α} {out out' : Bytes} :
    codec.put x out = .ok out' ↔ codec.write x out = (.ok (), out') := by
  unfold put
  rcases codec.write x out with ⟨e | _, left⟩ <;> simp

/-- An element that is not put leaves something in the buffer. -/
theorem exists_write_of_put_error {x : α} {out : Bytes} {e : StateError}
    (h : codec.put x out = .error e) : ∃ left, codec.write x out = (.error e, left) := by
  unfold put at h
  rcases hwrite : codec.write x out with ⟨e' | _, left⟩
  · rw [hwrite] at h
    obtain rfl : e' = e := Except.error.inj h
    exact ⟨left, rfl⟩
  · rw [hwrite] at h
    cases h

/-- Behind `out` the codec does what it does without, and `out` stays, whatever becomes of the
element. -/
structure Spares (codec : Codec α) (out : Bytes) : Prop where
  /-- The outcome is the same, and what is in the buffer behind `out`. -/
  put_eq : ∀ x buffer, codec.put x (out ++ buffer) = (codec.put x buffer).map (out ++ ·)
  /-- The buffer still begins with `out`. -/
  keeps : ∀ x buffer, out <+: (codec.write x (out ++ buffer)).2

/-- Every codec leaves alone what an empty buffer holds. -/
theorem spares_nil (codec : Codec α) : codec.Spares [] where
  put_eq x buffer := by
    rw [List.nil_append]
    cases codec.put x buffer <;> rfl
  keeps x buffer := List.nil_prefix

/-- Codecs that only append leave everything alone. -/
theorem Appending.spares (happending : codec.Appending) (hkeeping : codec.Keeping) (out : Bytes) :
    codec.Spares out where
  put_eq x buffer := by
    rw [happending x (out ++ buffer), happending x buffer]
    cases codec.encode x with
    | error e => rfl
    | ok bs => exact congrArg Except.ok (List.append_assoc out buffer bs)
  keeps x buffer := (List.prefix_append out buffer).trans (hkeeping x (out ++ buffer))

/-! ### Forms that are known as a whole -/

/-- The codec appends the form that an element has, and nothing if it has none. -/
def WritesForm (codec : Codec α) (form : α → Except StateError Bytes) : Prop :=
  ∀ x, codec.write x = appendForm (form x)

namespace WritesForm

variable {form : α → Except StateError Bytes} (h : codec.WritesForm form)
include h

/-- The form is put behind the buffer. -/
theorem put_eq (x : α) (out : Bytes) : codec.put x out = (form x).map (out ++ ·) := by
  rw [put, h x]
  cases form x <;> rfl

/-- The form is what an element is written as. -/
theorem encode_eq (x : α) : codec.encode x = form x := by
  rw [encode, h.put_eq]
  cases form x <;> rfl

/-- An element with a form is written. -/
theorem writes {x : α} (hx : ∃ bs, form x = .ok bs) : ∃ bs, codec.encode x = .ok bs := by
  rwa [h.encode_eq]

/-- What is put does not depend on what is there. -/
theorem appending : codec.Appending := by
  intro x out
  rw [h.put_eq, h.encode_eq]

/-- Nothing is taken away, and nothing is left of an element without a form. -/
theorem keeping : codec.Keeping := by
  intro x out
  rw [h x]
  cases form x with
  | error e => exact List.prefix_refl out
  | ok bs => exact List.prefix_append out bs

end WritesForm

/-- The codecs of the library know what they write as a whole. -/
theorem writesForm_u64 : Codec.u64.WritesForm fun n => .ok (Bytes.ofNatBE 8 n.toNat) := fun _ => rfl

theorem writesForm_i64 :
    Codec.i64.WritesForm fun i => .ok (Bytes.ofNatBE 8 i.toUInt64.toNat) := fun _ => rfl

theorem writesForm_bytes : Codec.bytes.WritesForm frame := fun _ => rfl

theorem writesForm_string : Codec.string.WritesForm fun s => frame (Utf8.encode s) := fun _ => rfl

theorem writesForm_packed (name : String) (version : UInt32) (format : MessagePack.Format α) :
    (Codec.packed name version format).WritesForm fun x => .ok (format.write x) := fun _ => rfl

/-! ### A time in front -/

/-- The written form of a stamped element: its time, and then the element. -/
theorem Appending.encode_stamped (hc : codec.Appending) (item : Stamped α) :
    codec.stamped.encode item
      = (codec.encode item.value).map
          (Bytes.ofNatBE 8 item.lastAccess.toUInt64.toNat ++ ·) :=
  hc item.value (Bytes.ofNatBE 8 item.lastAccess.toUInt64.toNat)

/-- The time is written behind what the buffer holds, and the element behind the time. -/
theorem Appending.stamped (hc : codec.Appending) : codec.stamped.Appending := by
  intro item out
  rw [hc.encode_stamped]
  show codec.put item.value (out ++ _) = _
  rw [hc]
  cases codec.encode item.value with
  | error e => rfl
  | ok inner => exact congrArg Except.ok (List.append_assoc ..)

/-- What stays behind of an element that cannot be written is its time, and a part of it. -/
theorem Keeping.stamped (hc : codec.Keeping) : codec.stamped.Keeping := fun item out =>
  (List.prefix_append out _).trans (hc item.value _)

/-! ### Elements of a larger type -/

variable {inject : α → β} {project : β → Option α}

/-- An item is written as the element that it holds. -/
theorem put_embed {x : α} {y : β} (hproject : project y = some x) (out : Bytes) :
    (codec.embed inject project).put y out = codec.put x out := by
  simp only [put, embed, hproject]

/-- Its written form is that of the element. -/
theorem encode_embed {x : α} {y : β} (hproject : project y = some x) :
    (codec.embed inject project).encode y = codec.encode x := put_embed hproject []

/-- An item that holds no element is refused. -/
theorem put_embed_of_none {y : β} (hproject : project y = none) (out : Bytes) :
    (codec.embed inject project).put y out
      = .error (.invalidArgument (.unfitItem codec.name)) := by
  simp only [put, embed, hproject]

/-- Whether an item holds an element does not depend on the buffer. -/
theorem Appending.embed (hc : codec.Appending) (inject : α → β) (project : β → Option α) :
    (codec.embed inject project).Appending := by
  intro y out
  cases hproject : project y with
  | none => rw [encode, put_embed_of_none hproject, put_embed_of_none hproject]; rfl
  | some x => rw [put_embed hproject, encode_embed hproject, hc]

/-- A refused item leaves the buffer as it was. -/
theorem Keeping.embed (hc : codec.Keeping) (inject : α → β) (project : β → Option α) :
    (codec.embed inject project).Keeping := by
  intro y out
  cases hproject : project y with
  | none => simp only [Codec.embed, hproject, List.prefix_refl]
  | some x =>
    simp only [Codec.embed, hproject]
    exact hc x out

end Codec

end AppendLists
