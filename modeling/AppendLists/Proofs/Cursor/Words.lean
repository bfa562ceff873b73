import AppendLists.Proofs.Cursor.Delivery

namespace AppendLists

/-!
# Cursors in machine words

A machine keeps the position of a cursor as a plain word, and stops at a sum that no word holds, at a
difference below zero and at bytes that are not there. None of this happens, however long the reads are
that it is asked for: a read looks at what is left before it moves.

* `Checked.add`, `Checked.sub`, `Checked.slice`, `Checked.copy`: what a machine can stop at;
* `WordCursor`: a cursor that promises nothing about its position, with all reads of `Cursor`;
* `Cursor.word`: a cursor without its promise;
* `Cursor.answer_word`, `Cursor.answers_word`: the machine does not stop, and reads what `Cursor` reads;
* `Cursor.reads_account_for_buffer`: what any reads come to.
-/

/-! ### What a machine can stop at -/

namespace Checked

/-- How many numbers a word holds. -/
def bound : Nat := 0x10000000000000000

/-- A sum that a word holds. -/
def add (m n : Nat) : Option Nat := if m + n < bound then some (m + n) else none

/-- A difference that is not below zero. -/
def sub (m n : Nat) : Option Nat := if n ≤ m then some (m - n) else none

/-- The bytes from one place to another. -/
def slice (bs : Bytes) (first last : Nat) : Option Bytes :=
  if first ≤ last ∧ last ≤ bs.length then some ((bs.drop first).take (last - first)) else none

/-- Bytes put into an array of `n` bytes, which they have to fill. -/
def copy (n : Nat) (bs : Bytes) : Option Bytes := if bs.length = n then some bs else none

theorem copy_of_length {n : Nat} {bs : Bytes} (h : bs.length = n) : copy n bs = some bs := if_pos h

end Checked

/-! ### The reads of a machine -/

/-- A byte string with a position that may be anywhere. The result of a read is `none` if the machine
stops at it. -/
structure WordCursor where
  /-- The whole byte string. -/
  buffer : Bytes
  /-- The offset of the next unread byte. -/
  position : Nat
deriving DecidableEq

namespace WordCursor

/-- The cursor at the start of a byte string. -/
def ofBytes (bs : Bytes) : WordCursor := ⟨bs, 0⟩

/-- The number of unread bytes. -/
def remaining (c : WordCursor) : Option Nat := Checked.sub c.buffer.length c.position

/-- The unread bytes. -/
def rest (c : WordCursor) : Option Bytes := Checked.slice c.buffer c.position c.buffer.length

/-- Read exactly `n` bytes. -/
def take (n : Nat) (c : WordCursor) : Option (Except StateError Bytes × WordCursor) := do
  let left ← c.remaining
  if left < n then return (.error (.corrupt (.endOfInput c.position n left)), c)
  else
    let last ← Checked.add c.position n
    let bs ← Checked.slice c.buffer c.position last
    return (.ok bs, ⟨c.buffer, last⟩)

/-- Read up to `n` bytes into the front of an array of `n` bytes. -/
def fill (n : Nat) (c : WordCursor) : Option (Bytes × WordCursor) := do
  let count := min n (← c.remaining)
  let front ← Checked.slice (List.replicate n 0) 0 count
  let last ← Checked.add c.position count
  let bs ← Checked.copy front.length (← Checked.slice c.buffer c.position last)
  return (bs, ⟨c.buffer, last⟩)

/-- Read exactly `n` bytes and reply what they are converted to. -/
def typed (n : Nat) (convert : Bytes → Option Cursor.Reply) (c : WordCursor) :
    Option (Cursor.Reply × WordCursor) := do
  match ← c.take n with
  | (.error e, c) => return (.corrupt e, c)
  | (.ok bs, c) => return (← convert bs, c)

/-- The reply to a read, and the cursor after it. A single byte is looked up in what was read; numbers
are made of arrays of their width. -/
def answer (c : WordCursor) : Cursor.Request → Option (Cursor.Reply × WordCursor)
  | .byte => c.typed 1 fun bs => bs.head?.map .byte
  | .wordLE => c.typed 4 fun bs =>
    (Checked.copy 4 bs).map fun bs => .word (UInt32.ofNat (Bytes.toNatLE bs))
  | .longBE => c.typed 8 fun bs =>
    (Checked.copy 8 bs).map fun bs => .long (UInt64.ofNat (Bytes.toNatBE bs))
  | .signedBE => c.typed 8 fun bs =>
    (Checked.copy 8 bs).map fun bs => .signed (UInt64.ofNat (Bytes.toNatBE bs)).toInt64
  | .take n => c.typed n fun bs => (Checked.copy n bs).map .bytes
  | .rest => do return (.bytes (← c.rest), c)
  | .buffer => return (.bytes c.buffer, c)
  | .isEmpty => do return (.flag ((← c.remaining) == 0), c)
  | .fill n => do
    let (bs, c) ← c.fill n
    return (.filled bs, c)
  | .fillExact n => do
    let (bs, c) ← c.fill n
    return (if bs.length < n then .failed (.device .endOfInput) else .bytes bs, c)

/-- The replies to several reads in turn, and the cursor after the last. -/
def answers (c : WordCursor) : List Cursor.Request → Option (List Cursor.Reply × WordCursor)
  | [] => some ([], c)
  | r :: rs => do
    let (reply, c) ← c.answer r
    let (replies, c) ← c.answers rs
    return (reply :: replies, c)

end WordCursor

/-! ### The machine does not stop -/

namespace Cursor

variable {c : Cursor} {n : Nat}

/-- The cursor as a machine keeps it. -/
def word (c : Cursor) : WordCursor := ⟨c.buffer, c.position⟩

/-- No subtraction goes below zero. -/
theorem remaining_word (c : Cursor) : c.word.remaining = some c.remaining := if_pos c.position_le

theorem rest_word (c : Cursor) : c.word.rest = some c.rest := by
  have hslice : c.position ≤ c.buffer.length ∧ c.buffer.length ≤ c.buffer.length :=
    ⟨c.position_le, Nat.le_refl _⟩
  rw [WordCursor.rest, word, Checked.slice, if_pos hslice, ← remaining, ← length_rest]
  exact congrArg some (List.take_length ..)

/-- What is left is there to be moved behind, in words. -/
theorem advance_word (hc : c.buffer.length < Checked.bound) (hn : n ≤ c.remaining) :
    Checked.add c.position n = some (c.skip n).position ∧
      Checked.slice c.buffer c.position (c.skip n).position = some (c.rest.take n) := by
  have hlength := c.position_add_remaining
  have hslice : c.position ≤ c.position + n ∧ c.position + n ≤ c.buffer.length := by omega
  rw [position_skip, Nat.min_eq_left hn, Checked.add, Checked.slice, if_pos (by omega), if_pos hslice,
    Nat.add_sub_cancel_left]
  exact ⟨rfl, rfl⟩

/-- Taking bytes does not overflow, since the bound is checked against what remains. -/
theorem take_word (hc : c.buffer.length < Checked.bound) :
    c.word.take n
      = some (if c.remaining < n then
          (.error (.corrupt (.endOfInput c.position n c.remaining)), c.word)
        else (.ok (c.rest.take n), (c.skip n).word)) := by
  rw [WordCursor.take, remaining_word]
  by_cases hshort : c.remaining < n
  · simp only [Option.bind_eq_bind, Option.bind_some, if_pos hshort]
    rfl
  · obtain ⟨hadd, hslice⟩ := advance_word hc (Nat.le_of_not_lt hshort)
    simp only [Option.bind_eq_bind, Option.bind_some, if_neg hshort, word, hadd, hslice]
    rfl

theorem fill_word (hc : c.buffer.length < Checked.bound) :
    c.word.fill n = some (c.rest.take n, (c.skip n).word) := by
  -- the count is cut to what is left, so this is a move as that of a typed read
  have hcount : min n c.remaining ≤ c.remaining := Nat.min_le_right ..
  obtain ⟨hadd, hslice⟩ := advance_word hc hcount
  have hbytes : c.rest.take (min n c.remaining) = c.rest.take n := by
    rw [← length_rest]
    exact List.take_eq_take_min.symm
  have hfront : Checked.slice (List.replicate n 0) 0 (min n c.remaining)
      = some (List.replicate (min n c.remaining) 0) := by
    have hfits : min n c.remaining ≤ (List.replicate n (0 : UInt8)).length := by
      rw [List.length_replicate]
      exact Nat.min_le_left ..
    rw [Checked.slice, if_pos ⟨Nat.zero_le _, hfits⟩, List.drop_zero, Nat.sub_zero,
      List.take_replicate, Nat.min_eq_left (Nat.min_le_left ..)]
  -- the front of the array is as long as what is put there
  have hcopy : Checked.copy (List.replicate (min n c.remaining) (0 : UInt8)).length (c.rest.take n)
      = some (c.rest.take n) := by
    apply Checked.copy_of_length
    simp
  rw [skip_min_remaining] at hadd hslice
  rw [hbytes] at hslice
  rw [WordCursor.fill, remaining_word]
  simp only [Option.bind_eq_bind, Option.bind_some, hfront, word, hadd, hslice, hcopy]
  rfl

/-- A typed read of the machine is that of the cursor if its conversion does not stop at as many bytes as
it needs. -/
theorem typed_word (hc : c.buffer.length < Checked.bound) {r : Request} {reply : Bytes → Reply}
    (h : r.typed = some (n, reply)) {convert : Bytes → Option Reply}
    (hconvert : ∀ bs, bs.length = n → convert bs = some (reply bs)) :
    c.word.typed n convert = some ((c.answer r).1, (c.answer r).2.word) := by
  rw [WordCursor.typed, take_word hc, answer_of_typed h]
  by_cases hshort : c.remaining < n
  · simp only [if_pos hshort]
    rfl
  · have hlength : (c.rest.take n).length = n := by
      rw [List.length_take, length_rest, Nat.min_eq_left (Nat.le_of_not_lt hshort)]
    simp only [if_neg hshort, Option.bind_eq_bind, Option.bind_some, hconvert _ hlength]
    rfl

/-- A read of the machine is that of the cursor. -/
theorem answer_word (hc : c.buffer.length < Checked.bound) (r : Request) :
    c.word.answer r = some ((c.answer r).1, (c.answer r).2.word) := by
  cases r with
  | byte =>
    refine typed_word hc rfl fun bs hbs => ?_
    obtain ⟨b, rfl⟩ := List.length_eq_one_iff.1 hbs
    rfl
  | wordLE | longBE | signedBE | take =>
    refine typed_word hc rfl fun bs hbs => ?_
    -- the machine copies the bytes into an array, whose length they have
    rw [Checked.copy_of_length hbs]
    rfl
  | rest =>
    rw [WordCursor.answer, rest_word]
    rfl
  | buffer => rfl
  | isEmpty =>
    rw [WordCursor.answer, remaining_word]
    rfl
  | fill n =>
    rw [WordCursor.answer, fill_word hc]
    rfl
  | fillExact n =>
    -- fewer bytes come than were asked for if fewer are left
    have hshort : (c.rest.take n).length < n ↔ c.remaining < n := by
      rw [List.length_take, length_rest]
      omega
    rw [WordCursor.answer, fill_word hc, answer_fillExact]
    simp only [Option.bind_eq_bind, Option.bind_some, hshort]
    rfl

/-- Reads of the machine in turn are those of the cursor. -/
theorem answers_word (hc : c.buffer.length < Checked.bound) (rs : List Request) :
    c.word.answers rs = some ((c.answers rs).1, (c.answers rs).2.word) := by
  induction rs generalizing c with
  | nil => rfl
  | cons r rs ih =>
    have hnext : (c.answer r).2.buffer.length < Checked.bound := by
      rwa [(ahead_answer c r).buffer_eq]
    rw [WordCursor.answers, answer_word hc]
    simp only [Option.bind_eq_bind, Option.bind_some, ih hnext]
    rfl

/-! ### What any reads come to -/

/-- **No byte is lost, repeated or overstepped.** Reads of any kinds and lengths in any order, from the
start of any buffer whose length is a word: a machine does not stop at one of them, so no sum leaves the
words, no difference is below zero and no byte is looked for that is not there. The position stays within
the buffer, what is left and the position add up to its length, and the buffer is the same. What the reads
have delivered, written in the order in which each of them reads, is the buffer up to the position; only a
stream read of an exact length can move behind bytes and fail. The next typed read fails if and only if
fewer bytes are left than it needs, and then the cursor does not move; otherwise it moves behind as many
bytes. A stream read moves behind what it asks for or what is left, and the unread bytes are those from the
position on. -/
theorem reads_account_for_buffer (bs : Bytes) (rs : List Request) :
    let replies := ((ofBytes bs).answers rs).1
    let c := ((ofBytes bs).answers rs).2
    (bs.length < Checked.bound →
      (WordCursor.ofBytes bs).answers rs = some (replies, ⟨bs, c.position⟩)) ∧
    c.buffer = bs ∧ c.position ≤ bs.length ∧ c.position + c.remaining = bs.length ∧
    ((∀ n, Request.fillExact n ∉ rs) → delivered rs replies = bs.take c.position) ∧
    (∀ r n, r.need = some n →
      ((∃ e, (c.answer r).1 = .corrupt e) ↔ c.remaining < n) ∧
      (c.remaining < n → (c.answer r).2 = c) ∧
      (n ≤ c.remaining → (c.answer r).2.position = c.position + n)) ∧
    (∀ n, (c.answer (.fill n)).2.position = c.position + min n c.remaining) ∧
    c.answer .rest = (.bytes (bs.drop c.position), c) := by
  intro replies c
  have hbuffer : c.buffer = bs := (ahead_answers (ofBytes bs) rs).buffer_eq
  have hle := c.position_le
  have hlength := c.position_add_remaining
  rw [hbuffer] at hle hlength
  refine ⟨fun hbs => ?_, hbuffer, hle, hlength, fun hrs => delivered_answers hrs bs,
    fun r n hneed => ⟨answer_eq_corrupt_iff hneed, fun hshort => ?_, fun henough => ?_⟩,
    position_skip c, ?_⟩
  · -- the machine starts where the cursor does, so it ends where the cursor does
    have hmachine : (ofBytes bs).word.answers rs = some (replies, c.word) := answers_word hbs rs
    have hend : c.word = ⟨bs, c.position⟩ := by rw [word, hbuffer]
    rw [hend] at hmachine
    exact hmachine
  · rw [snd_answer_of_need hneed, if_pos hshort]
  · rw [snd_answer_of_need hneed, if_neg (Nat.not_lt.2 henough), position_skip,
      Nat.min_eq_left henough]
  · rw [answer, rest, hbuffer]

/-- Six bytes, read as a number, then asked for more than there are, and read as a stream to the end: the
number and the two bytes behind it are delivered, and what was asked for too much is not missing. -/
theorem reads_account_for_six_bytes :
    let bs : Bytes := [1, 0, 0, 0, 9, 7]
    let rs : List Request :=
      [.wordLE, .longBE, .take 0xFFFFFFFFFFFFFFFF, .rest, .byte, .fill 3, .signedBE]
    bs.length < Checked.bound ∧ (∀ n, Request.fillExact n ∉ rs) ∧
      (WordCursor.ofBytes bs).answers rs
        = some (((ofBytes bs).answers rs).1, ⟨bs, 6⟩) ∧
      delivered rs ((ofBytes bs).answers rs).1 = bs.take 6 ∧
      Request.longBE.need = some 8 ∧
      ∃ e, (((ofBytes bs).answers rs).2.answer .longBE).1 = .corrupt e := by
  intro bs rs
  have hbs : bs.length < Checked.bound := by decide
  have hrs : ∀ n, Request.fillExact n ∉ rs := by simp [rs]
  have hposition : ((ofBytes bs).answers rs).2.position = 6 := by decide +kernel
  obtain ⟨hword, -, -, hlength, hdelivered, hnext, -⟩ := reads_account_for_buffer bs rs
  have hleft : ((ofBytes bs).answers rs).2.remaining < 8 := by
    have hsix : bs.length = 6 := rfl
    omega
  have hwords := hword hbs
  have htaken := hdelivered hrs
  rw [hposition] at hwords htaken
  exact ⟨hbs, hrs, hwords, htaken, rfl, (hnext .longBE 8 rfl).1.2 hleft⟩

end Cursor

end AppendLists
