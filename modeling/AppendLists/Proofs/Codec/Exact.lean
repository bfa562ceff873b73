import AppendLists.Proofs.Call
import AppendLists.Proofs.Codec.Fixed

namespace AppendLists

/-!
# Fixed layouts accept nothing else

What a codec of a fixed layout reads is what it writes for the element it reads, byte for byte, and
what it does not read it reports as corrupt.

* `Bytes.ofNatLE_word`, `ofNatBE_long`: bytes and the number of a fixed width that they are read as;
* `Cursor.rest_of_longBE`, `rest_of_signedBE`, `rest_of_wordLE`: typed reads and what they read;
* `Codec.Exact`: nothing is read as an element but its written form;
* `Codec.ReportsCorrupt`: what is not read is corrupt;
* `Codec.Strict`: both, together with reading back what is written;
* `strict_u64`, `strict_i64`, `strict_bytes`, `strict_string`, `Strict.stamped`, `Strict.embed`: the
  codecs and the ways they are made.
-/

/-! ### Numbers of a fixed width -/

namespace Bytes

variable {bs : Bytes}

/-- Four bytes are what their number is written as, least significant first. -/
theorem ofNatLE_word (h : bs.length = 4) : ofNatLE 4 (UInt32.ofNat (toNatLE bs)).toNat = bs := by
  have hlt : toNatLE bs < 2 ^ 32 := by
    have hbound := toNatLE_lt bs
    rw [h] at hbound
    exact hbound
  rw [UInt32.toNat_ofNat_of_lt' hlt, ← h]
  exact ofNatLE_toNatLE bs

/-- Eight bytes are what their number is written as, most significant first. -/
theorem ofNatBE_long (h : bs.length = 8) : ofNatBE 8 (UInt64.ofNat (toNatBE bs)).toNat = bs := by
  have hlt : toNatBE bs < 2 ^ 64 := by
    have hbound := toNatLE_lt bs.reverse
    rw [List.length_reverse, h] at hbound
    exact hbound
  rw [UInt64.toNat_ofNat_of_lt' hlt, ← h]
  exact ofNatBE_toNatBE bs

end Bytes

/-! ### Typed reads -/

namespace Cursor

variable {c c' : Cursor}

/-- What is taken has the length that was asked for. -/
theorem length_of_take {n : Nat} {bs : Bytes} (h : c.take n = .ok (bs, c')) : bs.length = n := by
  obtain ⟨hle, rfl, _⟩ := take_eq_ok_iff.1 h
  rw [List.length_take, length_rest, Nat.min_eq_left hle]

/-- A number that was read stood there as it is written. -/
theorem rest_of_longBE {n : UInt64} (h : c.longBE = .ok (n, c')) :
    c.rest = Bytes.ofNatBE 8 n.toNat ++ c'.rest := by
  obtain ⟨⟨bs, d⟩, htake, hn⟩ := bind_eq_ok h
  obtain ⟨rfl, rfl⟩ := Prod.mk.inj (Except.ok.inj hn)
  rw [Bytes.ofNatBE_long (length_of_take htake)]
  exact rest_take htake

/-- So did a signed one. -/
theorem rest_of_signedBE {i : Int64} (h : c.signedBE = .ok (i, c')) :
    c.rest = Bytes.ofNatBE 8 i.toUInt64.toNat ++ c'.rest := by
  obtain ⟨⟨n, d⟩, hlong, hi⟩ := bind_eq_ok h
  obtain ⟨rfl, rfl⟩ := Prod.mk.inj (Except.ok.inj hi)
  rw [UInt64.toUInt64_toInt64]
  exact rest_of_longBE hlong

/-- So did one of four bytes. -/
theorem rest_of_wordLE {n : UInt32} (h : c.wordLE = .ok (n, c')) :
    c.rest = Bytes.ofNatLE 4 n.toNat ++ c'.rest := by
  obtain ⟨⟨bs, d⟩, htake, hn⟩ := bind_eq_ok h
  obtain ⟨rfl, rfl⟩ := Prod.mk.inj (Except.ok.inj hn)
  rw [Bytes.ofNatLE_word (length_of_take htake)]
  exact rest_take htake

/-- Bytes that are not there are reported as corrupt. -/
theorem corrupt_of_take {n : Nat} {e : StateError} (h : c.take n = .error e) :
    ∃ reason, e = .corrupt reason := by
  unfold take at h
  split at h
  · exact ⟨_, (Except.error.inj h).symm⟩
  · cases h

/-- A number that cannot be read is reported as corrupt. -/
theorem corrupt_of_longBE {e : StateError} (h : c.longBE = .error e) :
    ∃ reason, e = .corrupt reason := by
  rcases bind_eq_error h with htake | ⟨_, _, hn⟩
  · exact corrupt_of_take htake
  · cases hn

/-- So is a signed one. -/
theorem corrupt_of_signedBE {e : StateError} (h : c.signedBE = .error e) :
    ∃ reason, e = .corrupt reason := by
  rcases bind_eq_error h with hlong | ⟨_, _, hi⟩
  · exact corrupt_of_longBE hlong
  · cases hi

/-- So is one of four bytes. -/
theorem corrupt_of_wordLE {e : StateError} (h : c.wordLE = .error e) :
    ∃ reason, e = .corrupt reason := by
  rcases bind_eq_error h with htake | ⟨_, _, hn⟩
  · exact corrupt_of_take htake
  · cases hn

end Cursor

namespace Codec

variable {α β : Type} {codec : Codec α}

/-- What the codec reads is what it writes for the element it reads. -/
def Exact (codec : Codec α) : Prop :=
  ∀ (c : Cursor) (x : α) (c' : Cursor), codec.decode c = .ok (x, c') →
    ∃ bs, codec.encode x = .ok bs ∧ c.rest = bs ++ c'.rest

/-- What the codec does not read it reports as corrupt. -/
def ReportsCorrupt (codec : Codec α) : Prop :=
  ∀ (c : Cursor) (e : StateError), codec.decode c = .error e → ∃ reason, e = .corrupt reason

/-- The codec reads its own written forms and nothing else. -/
structure Strict (codec : Codec α) : Prop where
  /-- It reads back what it writes. -/
  conforming : codec.Conforming
  /-- It reads nothing but what it writes. -/
  exactness : codec.Exact
  /-- Everything else is corrupt. -/
  corruption : codec.ReportsCorrupt

/-- A codec is exact if it reads nothing but the forms it appends. -/
theorem WritesForm.exact {form : α → Except StateError Bytes} (h : codec.WritesForm form)
    (hread : ∀ (c : Cursor) (x : α) (c' : Cursor), codec.decode c = .ok (x, c') →
      ∃ bs, form x = .ok bs ∧ c.rest = bs ++ c'.rest) : codec.Exact := by
  simpa only [Exact, h.encode_eq] using hread

/-! ### Numbers -/

/-- Eight bytes are the number they are read as. -/
theorem exact_u64 : Codec.u64.Exact :=
  writesForm_u64.exact fun _ _ _ h => ⟨_, rfl, Cursor.rest_of_longBE h⟩

/-- So are eight bytes of a signed one. -/
theorem exact_i64 : Codec.i64.Exact :=
  writesForm_i64.exact fun _ _ _ h => ⟨_, rfl, Cursor.rest_of_signedBE h⟩

theorem reportsCorrupt_u64 : Codec.u64.ReportsCorrupt := fun _ _ => Cursor.corrupt_of_longBE

theorem reportsCorrupt_i64 : Codec.i64.ReportsCorrupt := fun _ _ => Cursor.corrupt_of_signedBE

/-- Numbers are read and written strictly. -/
theorem strict_u64 : Codec.u64.Strict := ⟨conforming_u64, exact_u64, reportsCorrupt_u64⟩

/-- So are signed ones. -/
theorem strict_i64 : Codec.i64.Strict := ⟨conforming_i64, exact_i64, reportsCorrupt_i64⟩

/-! ### Framed bytes -/

/-- Unframed bytes were framed by their length. -/
theorem rest_of_unframe {c c' : Cursor} {bs : Bytes} (h : unframe c = .ok (bs, c')) :
    ∃ framed, frame bs = .ok framed ∧ c.rest = framed ++ c'.rest := by
  obtain ⟨⟨n, d⟩, hlength, htake⟩ := bind_eq_ok h
  have hn : bs.length = n.toNat := Cursor.length_of_take htake
  have hlt : bs.length < 0x100000000 := by
    rw [hn]
    exact n.toNat_lt
  refine ⟨_, frame_eq_ok_iff.2 ⟨hlt, rfl⟩, ?_⟩
  rw [Cursor.rest_of_wordLE hlength, Cursor.rest_take htake, hn, List.append_assoc]

/-- A frame that does not hold what it announces is corrupt. -/
theorem corrupt_of_unframe {c : Cursor} {e : StateError} (h : unframe c = .error e) :
    ∃ reason, e = .corrupt reason := by
  rcases bind_eq_error h with hlength | ⟨_, _, htake⟩
  · exact Cursor.corrupt_of_wordLE hlength
  · exact Cursor.corrupt_of_take htake

/-- A byte string that was read stood there in its frame. -/
theorem exact_bytes : Codec.bytes.Exact := writesForm_bytes.exact fun _ _ _ => rest_of_unframe

theorem reportsCorrupt_bytes : Codec.bytes.ReportsCorrupt := fun _ _ => corrupt_of_unframe

/-- A text is read from its own bytes only, since there is one way to write it. -/
theorem exact_string : Codec.string.Exact := by
  refine writesForm_string.exact fun c s c' h => ?_
  obtain ⟨⟨bs, d⟩, hunframe, hdecode⟩ := bind_eq_ok h
  cases hs : Utf8.decode bs with
  | error fault =>
    simp only [hs] at hdecode
    cases hdecode
  | ok s' =>
    simp only [hs] at hdecode
    obtain ⟨rfl, rfl⟩ := Prod.mk.inj (Except.ok.inj hdecode)
    obtain ⟨framed, hframe, hrest⟩ := rest_of_unframe hunframe
    refine ⟨framed, ?_, hrest⟩
    rw [Utf8.encode_of_decode hs, hframe]

/-- Too short a frame is corrupt, and so is what is no text. -/
theorem reportsCorrupt_string : Codec.string.ReportsCorrupt := by
  intro c e h
  rcases bind_eq_error h with hunframe | ⟨⟨bs, d⟩, _, hdecode⟩
  · exact corrupt_of_unframe hunframe
  · cases hs : Utf8.decode bs with
    | error fault =>
      simp only [hs] at hdecode
      exact ⟨_, (Except.error.inj hdecode).symm⟩
    | ok s =>
      simp only [hs] at hdecode
      cases hdecode

/-- Byte strings are read and written strictly. -/
theorem strict_bytes : Codec.bytes.Strict := ⟨conforming_bytes, exact_bytes, reportsCorrupt_bytes⟩

/-- So are texts. -/
theorem strict_string : Codec.string.Strict :=
  ⟨conforming_string, exact_string, reportsCorrupt_string⟩

/-! ### A time in front -/

/-- What is read as a stamped element is a time and what is read as the element. -/
theorem Exact.stamped (hc : codec.Appending) (h : codec.Exact) : codec.stamped.Exact := by
  intro c item c' hdecode
  obtain ⟨⟨lastAccess, d⟩, htime, hdecode⟩ := bind_eq_ok hdecode
  obtain ⟨⟨value, d'⟩, hvalue, hdecode⟩ := bind_eq_ok hdecode
  obtain ⟨rfl, rfl⟩ := Prod.mk.inj (Except.ok.inj hdecode)
  obtain ⟨inner, hencode, hrest⟩ := h d value d' hvalue
  refine ⟨_, hc.encode_stamped_eq_ok_iff.2 ⟨inner, hencode, rfl⟩, ?_⟩
  rw [Cursor.rest_of_signedBE htime, hrest, List.append_assoc]

/-- An element is corrupt if its time cannot be read, or what is behind it. -/
theorem ReportsCorrupt.stamped (h : codec.ReportsCorrupt) : codec.stamped.ReportsCorrupt := by
  intro c e hdecode
  rcases bind_eq_error hdecode with htime | ⟨⟨lastAccess, d⟩, _, hdecode⟩
  · exact Cursor.corrupt_of_signedBE htime
  · rcases bind_eq_error hdecode with hvalue | ⟨_, _, hdecode⟩
    · exact h d e hvalue
    · cases hdecode

/-- A time in front of strictly read elements is read strictly. -/
theorem Strict.stamped (h : codec.Strict) : codec.stamped.Strict :=
  ⟨h.conforming.stamped, h.exactness.stamped h.conforming.appending, h.corruption.stamped⟩

/-! ### Elements of a larger type -/

variable {inject : α → β} {project : β → Option α}

/-- The items that can be written are those that hold an element which can. -/
theorem encode_embed_eq_ok_iff {y : β} {bs : Bytes} :
    (codec.embed inject project).encode y = .ok bs
      ↔ ∃ x, project y = some x ∧ codec.encode x = .ok bs := by
  cases hproject : project y with
  | none => simp [encode, put_embed_of_none hproject]
  | some x => simp [encode_embed hproject]

/-- A codec of a part of a larger type conforms as it does on the part. -/
theorem Conforming.embed (hinject : ∀ y x, project y = some x → inject x = y)
    (hc : codec.Conforming) : (codec.embed inject project).Conforming where
  appending := hc.appending.embed inject project
  reads_back y bs hencode := by
    obtain ⟨x, hproject, hencode⟩ := encode_embed_eq_ok_iff.1 hencode
    exact ReadsBack.embed (hinject y x hproject) (hc.readsBack hencode)

/-- What is read as an item was written for the element in it. -/
theorem Exact.embed (hproject : ∀ x, project (inject x) = some x) (h : codec.Exact) :
    (codec.embed inject project).Exact := by
  intro c y c' hdecode
  cases hread : codec.decode c with
  | error e =>
    simp only [Codec.embed, hread] at hdecode
    cases hdecode
  | ok next =>
    obtain ⟨x, d⟩ := next
    simp only [Codec.embed, hread] at hdecode
    obtain ⟨rfl, rfl⟩ := Prod.mk.inj (Except.ok.inj hdecode)
    obtain ⟨bs, hencode, hrest⟩ := h c x d hread
    exact ⟨bs, encode_embed_eq_ok_iff.2 ⟨x, hproject x, hencode⟩, hrest⟩

/-- Holding an element in an item changes no errors of reading it. -/
theorem ReportsCorrupt.embed (h : codec.ReportsCorrupt) :
    (codec.embed inject project).ReportsCorrupt := by
  intro c e hdecode
  cases hread : codec.decode c with
  | error e' =>
    simp only [Codec.embed, hread] at hdecode
    obtain rfl : e' = e := Except.error.inj hdecode
    exact h c e' hread
  | ok next =>
    simp only [Codec.embed, hread] at hdecode
    cases hdecode

/-- A strict codec is strict on the items that hold its elements one to one. -/
theorem Strict.embed (hproject : ∀ x, project (inject x) = some x)
    (hinject : ∀ y x, project y = some x → inject x = y) (h : codec.Strict) :
    (codec.embed inject project).Strict :=
  ⟨h.conforming.embed hinject, h.exactness.embed hproject, h.corruption.embed⟩

end Codec

end AppendLists
