import AppendLists.Proofs.Codec.Exact
import AppendLists.Proofs.Codec.Forward

namespace AppendLists

/-!
# What reads deliver

Typed reads and stream reads can be mixed on one cursor. Each delivers the bytes that it moves behind, and
a read that fails delivers none and does not move, so what was delivered so far is the buffer up to the
position.

* `Cursor.Request.typed`, `Cursor.Request.need`: what typed reads need and what they make of it;
* `Cursor.answer_of_typed`: all that a typed read can come to;
* `Cursor.Request.delivered`, `Cursor.delivered`: the bytes that reads have delivered;
* `Cursor.rest_of_answer`, `Cursor.ahead_answer`: one read;
* `Cursor.rest_of_answers`, `Cursor.ahead_answers`, `Cursor.delivered_answers`: reads in turn.

A stream read of an exact length is the exception: if it comes up short, it has moved behind bytes that it
does not deliver.
-/

namespace Cursor

/-! ### Typed reads -/

/-- How many bytes a typed read needs, and what it replies when it has them. The other reads take what is
there. -/
def Request.typed : Request → Option (Nat × (Bytes → Reply))
  | .byte => some (1, fun bs => .byte (bs.headD 0))
  | .wordLE => some (4, fun bs => .word (UInt32.ofNat (Bytes.toNatLE bs)))
  | .longBE => some (8, fun bs => .long (UInt64.ofNat (Bytes.toNatBE bs)))
  | .signedBE => some (8, fun bs => .signed (UInt64.ofNat (Bytes.toNatBE bs)).toInt64)
  | .take n => some (n, .bytes)
  | .rest | .buffer | .isEmpty | .fill _ | .fillExact _ => none

/-- How many bytes a typed read needs. -/
def Request.need (r : Request) : Option Nat := r.typed.map Prod.fst

variable {c : Cursor} {r : Request} {n : Nat} {reply : Bytes → Reply}

/-- A typed read fails where the cursor is, or replies and moves behind the bytes it needs. -/
theorem answer_of_typed (h : r.typed = some (n, reply)) (c : Cursor) :
    c.answer r
      = if c.remaining < n then
          (.corrupt (.corrupt (.endOfInput c.position n c.remaining)), c)
        else (reply (c.rest.take n), c.skip n) := by
  cases r <;> cases h
  case byte =>
    rw [answer, byte, take]
    split <;> rfl
  case wordLE =>
    rw [answer, wordLE, take]
    split <;> rfl
  case longBE =>
    rw [answer, longBE, take]
    split <;> rfl
  case signedBE =>
    rw [answer, signedBE, longBE, take]
    split <;> rfl
  case take =>
    rw [answer, take]
    split <;> rfl

/-- What a typed read makes of its bytes is no failure. -/
theorem Request.reply_ne_corrupt (h : r.typed = some (n, reply)) (bs : Bytes) (e : StateError) :
    reply bs ≠ .corrupt e := by
  cases r <;> cases h <;> exact Reply.noConfusion

/-- A typed read fails if and only if fewer bytes are left than it needs. -/
theorem answer_eq_corrupt_iff (h : r.need = some n) :
    (∃ e, (c.answer r).1 = .corrupt e) ↔ c.remaining < n := by
  obtain ⟨⟨_, reply⟩, htyped, rfl⟩ := Option.map_eq_some_iff.1 h
  rw [answer_of_typed htyped]
  split
  · case isTrue hshort => exact iff_of_true ⟨_, rfl⟩ hshort
  · case isFalse henough =>
    refine iff_of_false ?_ henough
    rintro ⟨e, he⟩
    exact Request.reply_ne_corrupt htyped _ e he

/-- Where a typed read leaves the cursor. -/
theorem snd_answer_of_need (h : r.need = some n) :
    (c.answer r).2 = if c.remaining < n then c else c.skip n := by
  obtain ⟨⟨_, reply⟩, htyped, rfl⟩ := Option.map_eq_some_iff.1 h
  rw [answer_of_typed htyped, apply_ite Prod.snd]

/-- A cursor moves behind bytes that are there. -/
theorem position_skip (c : Cursor) (n : Nat) :
    (c.skip n).position = c.position + min n c.remaining := by
  have hlength := c.position_add_remaining
  simp only [skip]
  omega

/-- Behind all that is left is the end. -/
theorem skip_min_remaining (c : Cursor) (n : Nat) : c.skip (min n c.remaining) = c.skip n := by
  apply ext_fields
  · rfl
  · rw [position_skip, position_skip, Nat.min_assoc, Nat.min_self]

/-- A stream read of an exact length has moved also when it comes up short. -/
theorem answer_fillExact (c : Cursor) (n : Nat) :
    c.answer (.fillExact n)
      = (if c.remaining < n then .failed (.device .endOfInput) else .bytes (c.rest.take n),
        c.skip n) := by
  rw [answer, fillExact]
  by_cases hshort : c.remaining < n
  · simp only [if_pos hshort]
  · simp only [if_neg hshort]

/-! ### Deliveries -/

/-- The bytes that a read has delivered, numbers written in the order in which they were read. What only
looks at the buffer and what fails delivers nothing. -/
def Request.delivered : Request → Reply → Bytes
  | .byte, .byte b => [b]
  | .wordLE, .word n => Bytes.ofNatLE 4 n.toNat
  | .longBE, .long n => Bytes.ofNatBE 8 n.toNat
  | .signedBE, .signed i => Bytes.ofNatBE 8 i.toUInt64.toNat
  | .take _, .bytes bs => bs
  | .fill _, .filled bs => bs
  | .fillExact _, .bytes bs => bs
  | _, _ => []

/-- The bytes that reads in turn have delivered. -/
def delivered (rs : List Request) (replies : List Reply) : Bytes :=
  (List.zipWith Request.delivered rs replies).flatten

theorem Request.delivered_corrupt (r : Request) (e : StateError) :
    r.delivered (.corrupt e) = [] := by
  cases r <;> rfl

/-- A typed read delivers the bytes that its reply is made of. -/
theorem Request.delivered_of_typed (h : r.typed = some (n, reply)) {bs : Bytes}
    (hbs : bs.length = n) : r.delivered (reply bs) = bs := by
  cases r <;> cases h
  case byte =>
    obtain ⟨b, rfl⟩ := List.length_eq_one_iff.1 hbs
    rfl
  case wordLE => exact Bytes.ofNatLE_word hbs
  case longBE => exact Bytes.ofNatBE_long hbs
  case signedBE =>
    rw [Request.delivered, UInt64.toUInt64_toInt64]
    exact Bytes.ofNatBE_long hbs
  case take => rfl

/-- A read delivers the unread bytes that it moves behind. -/
theorem rest_of_answer (hr : ∀ n, r ≠ .fillExact n) (c : Cursor) :
    c.rest = r.delivered (c.answer r).1 ++ (c.answer r).2.rest := by
  cases htyped : r.typed with
  | some typed =>
    obtain ⟨n, reply⟩ := typed
    rw [answer_of_typed htyped]
    split
    · rw [Request.delivered_corrupt, List.nil_append]
    · -- the bytes that it needs are there, so none of them is left
      case isFalse henough =>
      have hlength : (c.rest.take n).length = n := by
        rw [List.length_take, length_rest, Nat.min_eq_left (by omega)]
      rw [Request.delivered_of_typed htyped hlength, rest_skip, List.take_append_drop]
  | none =>
    cases r with
    | byte | wordLE | longBE | signedBE | take => cases htyped
    | rest | buffer | isEmpty => rfl
    | fill n =>
      show c.rest = c.rest.take n ++ (c.skip n).rest
      rw [rest_skip, List.take_append_drop]
    | fillExact n => exact absurd rfl (hr n)

/-- A read does not go back. -/
theorem ahead_answer (c : Cursor) (r : Request) : c.Ahead (c.answer r).2 := by
  cases htyped : r.typed with
  | some typed =>
    obtain ⟨n, reply⟩ := typed
    rw [answer_of_typed htyped]
    split
    · exact .refl c
    · exact .skip c n
  | none =>
    cases r with
    | byte | wordLE | longBE | signedBE | take => cases htyped
    | rest | buffer | isEmpty => exact .refl c
    | fill n => exact .skip c n
    | fillExact n =>
      rw [answer_fillExact]
      exact .skip c n

/-! ### Reads in turn -/

theorem answers_cons (c : Cursor) (r : Request) (rs : List Request) :
    c.answers (r :: rs)
      = ((c.answer r).1 :: ((c.answer r).2.answers rs).1, ((c.answer r).2.answers rs).2) := rfl

theorem ahead_answers (c : Cursor) (rs : List Request) : c.Ahead (c.answers rs).2 := by
  induction rs generalizing c with
  | nil => exact .refl c
  | cons r rs ih => exact (ahead_answer c r).trans (ih (c.answer r).2)

theorem rest_of_answers {rs : List Request} (hrs : ∀ n, Request.fillExact n ∉ rs) (c : Cursor) :
    c.rest = delivered rs (c.answers rs).1 ++ (c.answers rs).2.rest := by
  induction rs generalizing c with
  | nil => rfl
  | cons r rs ih =>
    have hr : ∀ n, r ≠ .fillExact n := fun n h => hrs n (h ▸ List.mem_cons_self)
    have hothers : ∀ n, Request.fillExact n ∉ rs := fun n h => hrs n (List.mem_cons_of_mem r h)
    rw [answers_cons, delivered, List.zipWith_cons_cons, List.flatten_cons, List.append_assoc,
      ← delivered, ← ih hothers (c.answer r).2]
    exact rest_of_answer hr c

/-- Reads from the start of a buffer have delivered it up to the position. -/
theorem delivered_answers {rs : List Request} (hrs : ∀ n, Request.fillExact n ∉ rs) (bs : Bytes) :
    delivered rs ((ofBytes bs).answers rs).1
      = bs.take ((ofBytes bs).answers rs).2.position := by
  have hbuffer : ((ofBytes bs).answers rs).2.buffer = bs := (ahead_answers (ofBytes bs) rs).buffer_eq
  have hrest := rest_of_answers hrs (ofBytes bs)
  rw [rest_ofBytes, rest, hbuffer] at hrest
  -- what was delivered and the bytes up to the position stand in front of the same bytes
  apply List.append_cancel_right
  rw [List.take_append_drop]
  exact hrest.symm

end Cursor

end AppendLists
