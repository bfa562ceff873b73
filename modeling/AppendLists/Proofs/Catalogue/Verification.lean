import AppendLists.ListFormat.Conformance
import AppendLists.Proofs.Catalogue.SelfFraming
import AppendLists.Proofs.Codec.Forward
import AppendLists.Proofs.ListFormat.Grammar

namespace AppendLists

/-!
# What the check of a codec comes to

A codec is checked with one sample at a time, in front of a delimiter and the sample itself. A list
has the sample in front of other samples, or of nothing. For the codecs of the catalogue, those that
break the rules included, it makes no difference: where they stop in front of one delimiter they
stop in front of any, and of the end of input. So the lists of samples that pass are read back.

* `Codec.StopsAtDelimiter`: the codecs of which this is true, with `Strict.stopsAtDelimiter`,
  `stopsAtDelimiter_packed`, `StopsAtDelimiter.stamped`, `StopsAtDelimiter.embed` and the four that
  break the rules;
* `verifySample_of_readsInList`, `verifyCodec_of_readsInList`: samples that pass;
* `Codec.StopsAtDelimiter.readsInList_of_verifySample`: what has passed;
* `CodecSpec.verifyCodec_sound_and_complete`: all codecs of the catalogue.
-/

variable {α β : Type} {codec : Codec α}

/-! ### Stopping at a delimiter -/

namespace Codec

/-- What is read up to a delimiter is read in the same way up to any other, and up to the end of
input. -/
def StopsAtDelimiter (codec : Codec α) : Prop :=
  ∀ (c : Cursor) (x : α) (c' : Cursor) (rest : Bytes), codec.decode c = .ok (x, c') →
    c'.rest = delimiter :: rest →
      ∃ used, c.rest = used ++ delimiter :: rest ∧
        ∀ (d : Cursor) (tail : Bytes), EndsElement tail → d.rest = used ++ tail →
          codec.decode d = .ok (x, d.skip used.length)

/-- A strict codec reads what it wrote and stops there, whatever follows. -/
theorem Strict.stopsAtDelimiter (h : codec.Strict) : codec.StopsAtDelimiter := by
  intro c x c' rest hdecode hrest
  obtain ⟨bs, hencode, hfront⟩ := h.exactness c x c' hdecode
  exact ⟨bs, by rw [hfront, hrest], fun d tail _ => (h.conforming.readsBack hencode).2 d tail⟩

/-- A reader that does not look ahead stops behind its value. -/
theorem stopsAtDelimiter_packed {format : MessagePack.Format α} (h : format.read.Local)
    (name : String) (version : UInt32) :
    (Codec.packed name version format).StopsAtDelimiter := by
  intro c x c' rest hdecode hrest
  cases hread : format.read c.rest with
  | none =>
    simp only [Codec.packed, hread] at hdecode
    cases hdecode
  | some found =>
    obtain ⟨y, unread⟩ := found
    simp only [Codec.packed, hread] at hdecode
    obtain ⟨rfl, rfl⟩ := Prod.mk.inj (Except.ok.inj hdecode)
    obtain ⟨used, hused, hreads⟩ := h c.rest y unread hread
    have hunread : unread = delimiter :: rest := by
      rw [← hrest, Cursor.leaving_eq_skip hused, Cursor.rest_skip, hused, List.drop_left]
    refine ⟨used, by rw [hused, hunread], fun d tail _ hd => ?_⟩
    simp only [Codec.packed, hd, hreads tail, Cursor.leaving_eq_skip hd]

/-- A time in front is of a fixed length. -/
theorem StopsAtDelimiter.stamped (h : codec.StopsAtDelimiter) : codec.stamped.StopsAtDelimiter := by
  intro c item c' rest hdecode hrest
  obtain ⟨⟨time, b⟩, htime, hdecode⟩ := bind_eq_ok hdecode
  obtain ⟨⟨value, b'⟩, hvalue, hdecode⟩ := bind_eq_ok hdecode
  obtain ⟨rfl, rfl⟩ := Prod.mk.inj (Except.ok.inj hdecode)
  obtain ⟨used, hused, hread⟩ := h b value b' rest hvalue hrest
  refine ⟨Bytes.ofNatBE 8 time.toUInt64.toNat ++ used, ?_, fun d tail htail hd => ?_⟩
  · rw [Cursor.rest_of_signedBE htime, hused, List.append_assoc]
  · rw [List.append_assoc] at hd
    exact decode_stamped hd fun hafter => hread (d.skip 8) tail htail hafter

/-- An item is read as far as the element in it. -/
theorem StopsAtDelimiter.embed (h : codec.StopsAtDelimiter) (inject : α → β)
    (project : β → Option α) : (codec.embed inject project).StopsAtDelimiter := by
  intro c y c' rest hdecode hrest
  cases hread : codec.decode c with
  | error e =>
    simp only [Codec.embed, hread] at hdecode
    cases hdecode
  | ok next =>
    obtain ⟨x, b⟩ := next
    simp only [Codec.embed, hread] at hdecode
    obtain ⟨rfl, rfl⟩ := Prod.mk.inj (Except.ok.inj hdecode)
    obtain ⟨used, hused, hdecode⟩ := h c x b rest hread hrest
    refine ⟨used, hused, fun d tail htail hd => ?_⟩
    show (codec.decode d).map _ = _
    rw [hdecode d tail htail hd]
    rfl

/-- The front without delimiters ends where one stands, or with the input. -/
theorem takeWhile_of_endsElement {bs tail : Bytes} (hbs : ∀ b ∈ bs, (b != delimiter) = true)
    (htail : EndsElement tail) : (bs ++ tail).takeWhile (· != delimiter) = bs := by
  rw [List.takeWhile_append_of_pos hbs]
  rcases htail with rfl | ⟨rest, rfl⟩
  · simp
  · simp

/-- A codec that reads up to the next delimiter stops in front of it. -/
theorem stopsAtDelimiter_unframed : Codec.unframed.StopsAtDelimiter := by
  intro c s c' rest hdecode hrest
  obtain ⟨⟨bs, b⟩, htake, hdecode⟩ := bind_eq_ok hdecode
  obtain ⟨rfl, rfl⟩ := Prod.mk.inj (Except.ok.inj hdecode)
  have hfront : bs = c.rest.takeWhile (· != delimiter) := by
    obtain ⟨-, rfl, -⟩ := Cursor.take_eq_ok_iff.1 htake
    exact (List.prefix_iff_eq_take.1 (List.takeWhile_prefix _)).symm
  have hbs : ∀ b ∈ bs, (b != delimiter) = true := by
    rw [hfront]
    exact List.all_eq_true.1 List.all_takeWhile
  refine ⟨bs, by rw [Cursor.rest_take htake, hrest], fun d tail htail hd => ?_⟩
  have htake' := Cursor.take_of_rest hd
  show (d.take (d.rest.takeWhile (· != delimiter)).length >>= _) = _
  rw [hd, takeWhile_of_endsElement hbs htail, htake']
  rfl

/-- Nothing is left to stop at. -/
theorem stopsAtDelimiter_greedy : Codec.greedy.StopsAtDelimiter := by
  intro c s c' rest hdecode hrest
  obtain ⟨⟨bs, b⟩, htake, hdecode⟩ := bind_eq_ok hdecode
  obtain ⟨rfl, rfl⟩ := Prod.mk.inj (Except.ok.inj hdecode)
  obtain ⟨-, -, rfl⟩ := Cursor.take_eq_ok_iff.1 htake
  rw [Cursor.rest_skip, ← Cursor.length_rest, List.drop_length] at hrest
  cases hrest

/-- One that reads nothing stops at once. -/
theorem stopsAtDelimiter_zero : Codec.zero.StopsAtDelimiter := by
  intro c s c' rest hdecode hrest
  obtain ⟨rfl, rfl⟩ := Prod.mk.inj (Except.ok.inj hdecode)
  exact ⟨[], hrest, fun d tail _ _ => by rw [List.length_nil, Cursor.skip_zero]; rfl⟩

/-- One that loses something stops where it would otherwise. -/
theorem stopsAtDelimiter_lossy : Codec.lossy.StopsAtDelimiter := by
  intro c s c' rest hdecode hrest
  obtain ⟨⟨length, b⟩, hbyte, hdecode⟩ := bind_eq_ok hdecode
  obtain ⟨⟨bs, b'⟩, htake, hdecode⟩ := bind_eq_ok hdecode
  obtain ⟨rfl, rfl⟩ := Prod.mk.inj (Except.ok.inj hdecode)
  obtain ⟨⟨front, b''⟩, hfront, hlength⟩ := bind_eq_ok hbyte
  obtain ⟨rfl, rfl⟩ := Prod.mk.inj (Except.ok.inj hlength)
  have hone : front.length = 1 := Cursor.length_of_take hfront
  have hmany : bs.length = (front.headD 0).toNat := Cursor.length_of_take htake
  refine ⟨front ++ bs, ?_, fun d tail _ hd => ?_⟩
  · rw [Cursor.rest_take hfront, Cursor.rest_take htake, hrest, List.append_assoc]
  · rw [List.append_assoc] at hd
    have hfront' := Cursor.take_of_rest hd
    have hafter : (d.skip front.length).rest = bs ++ tail := by
      rw [Cursor.rest_skip, hd, List.drop_left]
    have htake' := Cursor.take_of_rest hafter
    rw [hone] at hfront' htake'
    rw [hmany] at htake'
    show (d.byte >>= _) = _
    simp only [Cursor.byte, hfront', bind, Except.bind, pure, Except.pure, htake', Cursor.skip_skip,
      List.length_append, hone, hmany]

end Codec

/-- So does every codec of the catalogue. -/
theorem CodecSpec.stopsAtDelimiter (spec : CodecSpec) : spec.codec.StopsAtDelimiter := by
  induction spec with
  | uint64 => exact (@CodecSpec.FixedLayout.strict .uint64 trivial).stopsAtDelimiter
  | int64 => exact (@CodecSpec.FixedLayout.strict .int64 trivial).stopsAtDelimiter
  | text => exact Codec.strict_string.stopsAtDelimiter.embed _ _
  | bytes => exact Codec.strict_bytes.stopsAtDelimiter.embed _ _
  | stamped inner ih => exact ih.stamped.embed _ _
  | packed type name version =>
    exact type.codec_cases name version fun α format inject project hlocal =>
      (Codec.stopsAtDelimiter_packed hlocal name version).embed inject project
  | unframed => exact Codec.stopsAtDelimiter_unframed.embed _ _
  | greedy => exact Codec.stopsAtDelimiter_greedy.embed _ _
  | zero => exact Codec.stopsAtDelimiter_zero.embed _ _
  | lossy => exact Codec.stopsAtDelimiter_lossy.embed _ _

/-! ### Samples that pass -/

/-- Whether the written form of an element holds the delimiter. -/
def Codec.holdsDelimiter (codec : Codec α) (x : α) : Bool :=
  match codec.encode x with
  | .ok bs => bs.contains delimiter
  | .error _ => false

variable [DecidableEq α] {describe : α → String}

/-- An element that is read back where a list has it passes. -/
theorem verifySample_of_readsInList {x : α} {bs : Bytes} (hencode : codec.encode x = .ok bs)
    (h : codec.ReadsInList x bs) :
    verifySample codec describe x = .ok (codec.holdsDelimiter x) := by
  obtain ⟨hne, hread⟩ := h
  have hempty : bs.isEmpty = false := List.isEmpty_eq_false_iff.2 hne
  have hdecode := hread (Cursor.ofBytes (bs ++ delimiter :: bs)) _ (.inr ⟨bs, rfl⟩) rfl
  have hend : ((Cursor.ofBytes (bs ++ delimiter :: bs)).skip bs.length).position = bs.length := by
    simp [Cursor.skip, Cursor.ofBytes]
  simp [verifySample, hencode, bind, Except.bind, pure, Except.pure, hempty, hdecode, hend,
    Codec.holdsDelimiter]

/-- What has passed is read back where a list has it. -/
theorem readsInList_of_verifySample (hforward : codec.Forward) (hstops : codec.StopsAtDelimiter)
    {x : α} {collides : Bool} (h : verifySample codec describe x = .ok collides) :
    ∃ bs, codec.encode x = .ok bs ∧ codec.ReadsInList x bs := by
  obtain ⟨bs, hencode, h⟩ := bind_eq_ok h
  refine ⟨bs, hencode, ?_⟩
  -- the three checks in their order: a form, its end, and the element again
  split at h
  · cases h
  · case isFalse hempty =>
    obtain ⟨⟨y, c'⟩, hdecode, h⟩ := bind_eq_ok h
    dsimp only at h
    split at h
    · cases h
    · case isFalse hposition =>
      split at h
      · cases h
      · case isFalse hsame =>
        obtain rfl : y = x := Decidable.not_not.1 hsame
        have hrest : c'.rest = delimiter :: bs := by
          rw [Cursor.rest, (hforward _ y c' hdecode).buffer_eq, Decidable.not_not.1 hposition]
          exact List.drop_left
        -- the check was made with a delimiter behind, which is where a list has the element too
        obtain ⟨used, hused, hread⟩ := hstops _ y c' bs hdecode hrest
        have hsame : bs = used := List.append_cancel_right hused
        rw [← hsame] at hread
        exact ⟨fun hnil => hempty (List.isEmpty_iff.2 hnil), hread⟩

/-! ### Lists of samples -/

/-- Samples that are read back where a list has them pass, and the report counts those whose written
form holds the delimiter. -/
theorem verifyCodec_of_readsInList {samples : List α}
    (h : ∀ x ∈ samples, ∃ bs, codec.encode x = .ok bs ∧ codec.ReadsInList x bs) :
    verifyCodec codec describe samples
      = .ok ⟨codec.name, samples.length, samples.countP codec.holdsDelimiter⟩ := by
  have hmap : samples.mapM (verifySample codec describe)
      = .ok (samples.map codec.holdsDelimiter) := by
    induction samples with
    | nil => rfl
    | cons x samples ih =>
      obtain ⟨⟨bs, hencode, hread⟩, hsamples⟩ := List.forall_mem_cons.1 h
      exact mapM_cons_eq_ok_iff.2
        ⟨_, _, verifySample_of_readsInList hencode hread, ih hsamples, rfl⟩
  have hcount : (samples.map codec.holdsDelimiter).count true
      = samples.countP codec.holdsDelimiter := by
    rw [List.count, List.countP_map]
    congr
    funext x
    simp
  simp only [verifyCodec, hmap, bind, Except.bind, pure, Except.pure, hcount]

/-- If samples pass, each of them has passed. -/
theorem exists_verifySample {samples : List α} {report : ConformanceReport}
    (h : verifyCodec codec describe samples = .ok report) :
    ∀ x ∈ samples, ∃ collides, verifySample codec describe x = .ok collides := by
  obtain ⟨collisions, hmap, -⟩ := bind_eq_ok h
  exact mapM_isOk_iff.1 ⟨collisions, hmap⟩

/-- If samples pass the check of a codec of the catalogue, the report says how many they are and how
many of them hold the delimiter in their written form, and every list made of them, in any order and
with any repetitions, is written and read back. Samples that a conforming codec writes pass, and so
do items of the element type of a codec whose lengths fit. -/
theorem CodecSpec.verifyCodec_sound_and_complete (spec : CodecSpec) (describe : Item → String)
    (samples : List Item) :
    (∀ report, verifyCodec spec.codec describe samples = .ok report →
      report = ⟨spec.codec.name, samples.length, samples.countP spec.codec.holdsDelimiter⟩ ∧
      ∀ xs : List Item, (∀ x ∈ xs, x ∈ samples) →
        ∃ bs, encodeList spec.codec xs = .ok bs ∧ decodeList spec.codec (some bs) = .ok xs) ∧
    (spec.codec.Conforming → (∀ x ∈ samples, spec.codec.Writes x) →
      ∃ report, verifyCodec spec.codec describe samples = .ok report
        ∧ report.samples = samples.length) ∧
    ((∀ x ∈ samples, spec.Holds x ∧ x.Short) →
      ∃ report, verifyCodec spec.codec describe samples = .ok report
        ∧ report.samples = samples.length) := by
  refine ⟨fun report hreport => ?_, fun hconforming hwrites => ?_, fun hsamples => ?_⟩
  · -- a sample that passed is read back by itself, which is all that a list asks of it
    have hpassed : ∀ x ∈ samples,
        ∃ bs, spec.codec.encode x = .ok bs ∧ spec.codec.ReadsInList x bs := by
      intro x hx
      obtain ⟨collides, hsample⟩ := exists_verifySample hreport x hx
      exact readsInList_of_verifySample spec.forward spec.stopsAtDelimiter hsample
    refine ⟨?_, fun xs hxs =>
      decodeList_encodeList_of_readsInList spec.appending fun x hx => hpassed x (hxs x hx)⟩
    exact Except.ok.inj (hreport.symm.trans (verifyCodec_of_readsInList hpassed))
  · refine ⟨_, verifyCodec_of_readsInList fun x hx => ?_, rfl⟩
    obtain ⟨bs, hencode⟩ := hwrites x hx
    exact ⟨bs, hencode, (hconforming.readsBack hencode).inList⟩
  · refine ⟨_, verifyCodec_of_readsInList fun x hx => ?_, rfl⟩
    obtain ⟨bs, hencode, hread⟩ := CodecSpec.selfFraming (hsamples x hx).1 (hsamples x hx).2
    exact ⟨bs, hencode, hread.inList⟩

/-- Texts without a frame pass as long as they hold no delimiter, and the time in front of them may
hold one. Numbers and packed texts pass with delimiters in their written forms. -/
theorem CodecSpec.verifyCodec_of_samples_with_delimiters :
    let stamped := CodecSpec.stamped .unframed
    let samples := [Item.stamped (.text "ab") 44, Item.stamped (.text "c") 1]
    let packed := CodecSpec.packed .text "words" 1
    (verifyCodec stamped.codec Item.describe samples = .ok ⟨"ttl(unframed)", 2, 1⟩ ∧
      ∃ bs, encodeList stamped.codec (samples ++ samples.reverse) = .ok bs
        ∧ decodeList stamped.codec (some bs) = .ok (samples ++ samples.reverse)) ∧
    (∃ report, verifyCodec CodecSpec.uint64.codec Item.describe [.uint64 44] = .ok report
      ∧ report.samples = 1) ∧
    ∃ report, verifyCodec packed.codec Item.describe [.packed (.text "a,b")] = .ok report
      ∧ report.samples = 1 := by
  intro stamped samples packed
  have hverified : verifyCodec stamped.codec Item.describe samples
      = .ok ⟨"ttl(unframed)", 2, 1⟩ := by with_unfolding_all rfl
  have hfixed : CodecSpec.uint64.FixedLayout := trivial
  refine ⟨⟨hverified, ?_⟩, ?_, ?_⟩
  · refine ((verifyCodec_sound_and_complete stamped Item.describe samples).1 _ hverified).2 _
      fun x hx => ?_
    simpa [or_comm] using hx
  · refine (verifyCodec_sound_and_complete .uint64 Item.describe [.uint64 44]).2.1
      hfixed.strict.conforming fun x hx => ?_
    obtain rfl := List.mem_singleton.1 hx
    exact ⟨_, rfl⟩
  · refine (verifyCodec_sound_and_complete packed Item.describe _).2.2 fun x hx => ?_
    obtain rfl := List.mem_singleton.1 hx
    exact ⟨rfl, by show Utf8.size "a,b" < 0x100000000; decide⟩

end AppendLists
