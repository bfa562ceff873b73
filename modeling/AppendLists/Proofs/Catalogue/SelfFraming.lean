import AppendLists.Proofs.Codec.Fixed
import AppendLists.Proofs.MessagePack.Formats
import AppendLists.Proofs.MessagePack.Locality

namespace AppendLists

/-!
# The codecs of the catalogue frame their elements

Whatever bytes follow, a codec of the catalogue that follows the rules finds the end of the element
it wrote. So its lists are read back, delimiters inside the elements or not.

* `Packed.Short`, `Item.Short`: items whose lengths four bytes count;
* `CodecSpec.Holds`: the items a codec is for;
* `Codec.SelfFraming`: an element is written, and what is written is read back as it in front of
  anything;
* `Codec.selfFraming_packed`, `SelfFraming.stamped`, `SelfFraming.embed`: the ways codecs are made;
* `CodecSpec.appending`, `CodecSpec.keeping`: no codec of the catalogue looks at what the buffer holds
  or takes it away;
* `CodecSpec.reads_back_elements_and_lists`: all codecs that follow the rules, and their lists.
-/

/-! ### Items and their codecs -/

/-- All lengths in a packed value fit four bytes: of its texts, of its sequences, of its tables. -/
def Packed.Short : Packed → Prop
  | .text s => Utf8.size s < 0x100000000
  | .bytes bs => bs.length < 0x100000000
  | .texts ss => ss.length < 0x100000000 ∧ ∀ s ∈ ss, Utf8.size s < 0x100000000
  | .table t => t.size < 0x100000000 ∧ ∀ k ∈ t.keys, Utf8.size k < 0x100000000
  | .event e => Utf8.size e.tag < 0x100000000
  | .reading r => Utf8.size r.sensor < 0x100000000
  | .fineReading r => Utf8.size r.sensor < 0x100000000
  | .descriptor d => Utf8.size d.name < 0x100000000
  | _ => True

/-- All lengths in an item fit four bytes. -/
def Item.Short : Item → Prop
  | .text s => Utf8.size s < 0x100000000
  | .bytes bs => bs.length < 0x100000000
  | .stamped value _ => value.Short
  | .packed p => p.Short
  | _ => True

/-- The type of a packed value. -/
def Packed.type : Packed → PackedType
  | .uint8 _ => .uint8
  | .uint32 _ => .uint32
  | .int32 _ => .int32
  | .uint64 _ => .uint64
  | .int64 _ => .int64
  | .bool _ => .bool
  | .text _ => .text
  | .unit => .unit
  | .optional _ => .optional
  | .bytes _ => .bytes
  | .texts _ => .texts
  | .table _ => .table
  | .event _ => .event
  | .reading _ => .reading
  | .fineReading _ => .fineReading
  | .kind _ => .kind
  | .descriptor _ => .descriptor
  | .operator _ => .operator

/-- The items of the element type of a codec. The codecs that break the rules of the list format
hold none. -/
def CodecSpec.Holds : CodecSpec → Item → Prop
  | .uint64, .uint64 _ => True
  | .int64, .int64 _ => True
  | .text, .text _ => True
  | .bytes, .bytes _ => True
  | .stamped inner, .stamped value _ => inner.Holds value
  | .packed type _ _, .packed p => p.type = type
  | _, _ => False

/-! ### Self-framing elements -/

variable {α β : Type} {codec : Codec α}

namespace Codec

/-- The element is written, and what is written is read back as it in front of anything. -/
def SelfFraming (codec : Codec α) (x : α) : Prop :=
  ∃ bs, codec.encode x = .ok bs ∧ codec.ReadsBack x bs

/-- A conforming codec frames what it writes. -/
theorem Conforming.selfFraming (hc : codec.Conforming) {x : α} (hx : codec.Writes x) :
    codec.SelfFraming x := by
  obtain ⟨bs, hbs⟩ := hx
  exact ⟨bs, hbs, hc.readsBack hbs⟩

/-- A byte string of fewer than 2 ^ 32 bytes is framed. -/
theorem writes_frame {bs : Bytes} (h : bs.length < 0x100000000) : ∃ framed, frame bs = .ok framed :=
  ⟨_, frame_eq_ok_iff.2 ⟨h, rfl⟩⟩

/-- A packed value, if its format takes what it writes off the front of anything. -/
theorem selfFraming_packed {format : MessagePack.Format α} {x : α} (hempty : format.read [] = none)
    (hread : format.read.Reads (format.write x) x) (name : String) (version : UInt32) :
    (Codec.packed name version format).SelfFraming x := by
  refine ⟨format.write x, rfl, ?_, fun c tail hrest => ?_⟩
  · intro hnil
    have h := hread []
    rw [hnil, List.nil_append, hempty] at h
    cases h
  · simp only [Codec.packed, hrest, hread tail, Cursor.leaving_eq_skip hrest]

/-- An element stays self-framing behind a time. -/
theorem SelfFraming.stamped (hc : codec.Appending) {item : Stamped α}
    (h : codec.SelfFraming item.value) : codec.stamped.SelfFraming item := by
  obtain ⟨inner, hencode, hread⟩ := h
  exact ⟨_, hc.encode_stamped_eq_ok_iff.2 ⟨inner, hencode, rfl⟩, hread.stamped⟩

/-- An item frames itself if the element in it does. -/
theorem SelfFraming.embed {inject : α → β} {project : β → Option α} {x : α} {y : β}
    (hproject : project y = some x) (hinject : inject x = y) (h : codec.SelfFraming x) :
    (codec.embed inject project).SelfFraming y := by
  obtain ⟨bs, hencode, hread⟩ := h
  exact ⟨bs, by rw [encode_embed hproject, hencode], hread.embed hinject⟩

/-- A list of self-framing elements is written and read back. -/
theorem decodeList_encodeList_of_selfFraming (hc : codec.Appending) {xs : List α}
    (h : ∀ x ∈ xs, codec.SelfFraming x) :
    ∃ bs, encodeList codec xs = .ok bs ∧ decodeList codec (some bs) = .ok xs :=
  decodeList_encodeList_of_readsInList hc fun x hx =>
    (h x hx).imp fun _ => And.imp_right Codec.ReadsBack.inList

end Codec

/-! ### Texts that break the rules -/

namespace Codec

/-- The codecs without frames know what they write as well. -/
theorem writesForm_unframed : Codec.unframed.WritesForm fun s => .ok (Utf8.encode s) := fun _ => rfl

theorem writesForm_greedy : Codec.greedy.WritesForm fun s => .ok (Utf8.encode s) := fun _ => rfl

theorem writesForm_zero : Codec.zero.WritesForm fun _ => .ok [] := fun _ => rfl

theorem writesForm_lossy :
    Codec.lossy.WritesForm fun s =>
      .ok (UInt8.ofNat (Utf8.encode s).length :: (Utf8.encode s).map Codec.upperByte) :=
  fun _ => rfl

end Codec

/-! ### Packed values by their type -/

/-- A packed value whose lengths fit is self-framing. -/
theorem Packed.selfFraming {p : Packed} (h : p.Short) (name : String) (version : UInt32) :
    (p.type.codec name version).SelfFraming (.packed p) := by
  open Codec MessagePack in
  cases p <;> simp only [Packed.type, PackedType.codec]
  case uint8 n => exact .embed rfl rfl (selfFraming_packed rfl (reads_uint8 n) name version)
  case uint32 n => exact .embed rfl rfl (selfFraming_packed rfl (reads_uint32 n) name version)
  case int32 n => exact .embed rfl rfl (selfFraming_packed rfl (reads_int32 n) name version)
  case uint64 n => exact .embed rfl rfl (selfFraming_packed rfl (reads_uint64 n) name version)
  case int64 n => exact .embed rfl rfl (selfFraming_packed rfl (reads_int64 n) name version)
  case bool b => exact .embed rfl rfl (selfFraming_packed rfl (reads_bool b) name version)
  case text s => exact .embed rfl rfl (selfFraming_packed rfl (reads_string h) name version)
  case unit => exact .embed rfl rfl (selfFraming_packed rfl reads_unit name version)
  case optional n => exact .embed rfl rfl (selfFraming_packed rfl (reads_optional n) name version)
  case bytes bs => exact .embed rfl rfl (selfFraming_packed rfl (reads_byteSeq h) name version)
  case texts ss => exact .embed rfl rfl (selfFraming_packed rfl (reads_stringSeq h.1 h.2) name version)
  case table t =>
    -- the values of a table are read one by one, so the bound is that of its numbers
    have hread := reads_table h.1 h.2 fun n _ => reads_int64 n
    exact .embed rfl rfl (selfFraming_packed rfl hread name version)
  case event e => exact .embed rfl rfl (selfFraming_packed rfl (reads_event h) name version)
  case reading r => exact .embed rfl rfl (selfFraming_packed rfl (reads_reading h) name version)
  case fineReading r => exact .embed rfl rfl (selfFraming_packed rfl (reads_fineReading h) name version)
  case kind k => exact .embed rfl rfl (selfFraming_packed rfl (reads_kind k) name version)
  case descriptor d => exact .embed rfl rfl (selfFraming_packed rfl (reads_descriptor h) name version)
  case operator op =>
    have hread : Format.mergeOperator.read.Reads (Format.mergeOperator.write op) op :=
      reads_mergeOperator depthLimit op
    exact .embed rfl rfl (selfFraming_packed rfl hread name version)

/-! ### What the codecs do to the buffer -/

namespace CodecSpec

/-- Every codec of the catalogue, those that break the rules included, puts what it writes behind
what the buffer holds. -/
theorem appending (spec : CodecSpec) : spec.codec.Appending := by
  induction spec with
  | uint64 => exact Codec.writesForm_u64.appending.embed _ _
  | int64 => exact Codec.writesForm_i64.appending.embed _ _
  | text => exact Codec.writesForm_string.appending.embed _ _
  | bytes => exact Codec.writesForm_bytes.appending.embed _ _
  | stamped inner ih => exact ih.stamped.embed _ _
  | packed type name version =>
    exact type.codec_cases name version fun α format inject project _ =>
      (Codec.writesForm_packed name version format).appending.embed inject project
  | unframed => exact Codec.writesForm_unframed.appending.embed _ _
  | greedy => exact Codec.writesForm_greedy.appending.embed _ _
  | zero => exact Codec.writesForm_zero.appending.embed _ _
  | lossy => exact Codec.writesForm_lossy.appending.embed _ _

/-- No codec of the catalogue takes anything from the buffer. -/
theorem keeping (spec : CodecSpec) : spec.codec.Keeping := by
  induction spec with
  | uint64 => exact Codec.writesForm_u64.keeping.embed _ _
  | int64 => exact Codec.writesForm_i64.keeping.embed _ _
  | text => exact Codec.writesForm_string.keeping.embed _ _
  | bytes => exact Codec.writesForm_bytes.keeping.embed _ _
  | stamped inner ih => exact ih.stamped.embed _ _
  | packed type name version =>
    exact type.codec_cases name version fun α format inject project _ =>
      (Codec.writesForm_packed name version format).keeping.embed inject project
  | unframed => exact Codec.writesForm_unframed.keeping.embed _ _
  | greedy => exact Codec.writesForm_greedy.keeping.embed _ _
  | zero => exact Codec.writesForm_zero.keeping.embed _ _
  | lossy => exact Codec.writesForm_lossy.keeping.embed _ _

/-! ### All codecs that follow the rules -/

/-- Every item that a codec is for, and whose lengths fit, is self-framing. -/
theorem selfFraming {spec : CodecSpec} {item : Item} (hitem : spec.Holds item)
    (hshort : item.Short) : spec.codec.SelfFraming item := by
  -- along the nesting of the codec, which the item follows
  induction spec generalizing item with
  | uint64 =>
    cases item <;> try exact hitem.elim
    exact .embed rfl rfl (Codec.conforming_u64.selfFraming ⟨_, rfl⟩)
  | int64 =>
    cases item <;> try exact hitem.elim
    exact .embed rfl rfl (Codec.conforming_i64.selfFraming ⟨_, rfl⟩)
  | text =>
    cases item <;> try exact hitem.elim
    exact .embed rfl rfl (Codec.conforming_string.selfFraming
      (Codec.writesForm_string.writes (Codec.writes_frame hshort)))
  | bytes =>
    cases item <;> try exact hitem.elim
    exact .embed rfl rfl (Codec.conforming_bytes.selfFraming
      (Codec.writesForm_bytes.writes (Codec.writes_frame hshort)))
  | stamped inner ih =>
    cases item <;> try exact hitem.elim
    case stamped value lastAccess =>
      have hvalue : inner.codec.SelfFraming value := ih hitem hshort
      exact .embed rfl rfl (Codec.SelfFraming.stamped inner.appending hvalue)
  | packed type name version =>
    cases item <;> try exact hitem.elim
    case packed p =>
      obtain rfl : p.type = type := hitem
      exact Packed.selfFraming hshort name version
  | unframed | greedy | zero | lossy => cases item <;> exact hitem.elim

/-- The elements of a codec are written as something, and reading that in front of anything gives
the element back and moves exactly to its end; the bytes before and behind the end may be delimiters.
So a list of such elements is read back from its written form. -/
theorem reads_back_elements_and_lists (spec : CodecSpec) :
    (∀ item, spec.Holds item → item.Short →
      ∃ bs, spec.codec.encode item = .ok bs ∧ bs ≠ [] ∧
        ∀ (c : Cursor) (tail : Bytes), c.rest = bs ++ tail →
          ∃ c', spec.codec.decode c = .ok (item, c') ∧ c'.buffer = c.buffer
            ∧ c'.position = c.position + bs.length ∧ c'.rest = tail) ∧
    ∀ items : List Item, (∀ item ∈ items, spec.Holds item ∧ item.Short) →
      ∃ bs, encodeList spec.codec items = .ok bs ∧ decodeList spec.codec (some bs) = .ok items := by
  constructor
  · intro item hitem hshort
    obtain ⟨bs, hencode, hne, hdecode⟩ := selfFraming hitem hshort
    refine ⟨bs, hencode, hne, fun c tail hrest => ?_⟩
    have hlen : bs.length + tail.length = c.remaining := by
      rw [← Cursor.length_rest, hrest, List.length_append]
    have hend : (c.skip bs.length).position = c.position + bs.length := by
      have hposition := c.position_add_remaining
      simp only [Cursor.skip]
      omega
    exact ⟨_, hdecode c tail hrest, rfl, hend, by rw [Cursor.rest_skip, hrest, List.drop_left]⟩
  · intro items hitems
    exact Codec.decodeList_encodeList_of_selfFraming spec.appending fun item hitem =>
      selfFraming (hitems item hitem).1 (hitems item hitem).2

/-- Twice stamped sequences of texts, with delimiters in the texts and in the times. -/
theorem reads_back_stamped_texts :
    let spec := CodecSpec.stamped (.stamped (.packed .texts "lines" 1))
    let item := Item.stamped (.stamped (.packed (.texts ["a,b", ""])) 44) (-1)
    (∀ other ∈ [item, item], spec.Holds other ∧ other.Short) ∧
      (∃ bs, spec.codec.encode item = .ok bs ∧ delimiter ∈ bs) ∧
      ∃ bs, encodeList spec.codec [item, item] = .ok bs
        ∧ decodeList spec.codec (some bs) = .ok [item, item] := by
  intro spec item
  have hshort : item.Short := by
    show 2 < 0x100000000 ∧ ∀ s ∈ ["a,b", ""], Utf8.size s < 0x100000000
    decide
  have hitems : ∀ other ∈ [item, item], spec.Holds other ∧ other.Short := by
    intro other hother
    obtain rfl : other = item := by simpa using hother
    exact ⟨rfl, hshort⟩
  exact ⟨hitems, ⟨_, rfl, by decide⟩, (reads_back_elements_and_lists spec).2 _ hitems⟩

end CodecSpec

end AppendLists
