import AppendLists.Catalogue.Codec
import AppendLists.Proofs.MessagePack.RoundTrip

namespace AppendLists

namespace MessagePack

/-!
# Readers do not look ahead

What a reader takes off the front it takes off the front of anything: it has not looked at the bytes
behind the value. This holds of everything the readers accept, not only of what the writers produce.

* `Reader.Local`: the property, and the readers it carries over to;
* `local_readHead`: markers, whose first byte says how many belong to them;
* `Reader.ByHead`: readers that begin with a marker, and go on by what it announces. An absent value
  is told from any other by its marker, so `ByHead.option` needs this of the value;
* `local_skip`, `local_readFields`: values passed over, and records as maps;
* `PackedType.codec_cases`: the formats of the catalogue, none of which looks ahead.
-/

variable {α β γ σ : Type}

/-- The bytes taken off are taken off the front of anything, as the same value. -/
def Reader.Local (r : Reader α) : Prop :=
  ∀ bs a rest, r bs = some (a, rest) → ∃ used, bs = used ++ rest ∧ r.Reads used a

namespace Reader.Local

/-! ### Combining readers -/

/-- Reading nothing looks at nothing. -/
protected theorem pure (a : α) : Reader.Local fun bs => some (a, bs) := by
  intro bs b rest h
  obtain ⟨rfl, rfl⟩ := Prod.mk.inj (Option.some.inj h)
  exact ⟨[], rfl, fun _ => rfl⟩

/-- The property goes over to a reader that reads the same. -/
protected theorem congr {r s : Reader α} (h : r.Local) (heq : ∀ bs, s bs = r bs) : s.Local := by
  obtain rfl : s = r := funext heq
  exact h

/-- A reader that never accepts has nothing to look at. -/
theorem fail : Reader.Local fun _ => (none : Option (α × Bytes)) := nofun

/-- A reader behind another one. -/
protected theorem bind {r : Reader α} {next : α → Reader β} (hr : r.Local)
    (hnext : ∀ a, (next a).Local) :
    Reader.Local fun bs => r bs >>= fun (a, rest) => next a rest := by
  intro bs b rest hread
  obtain ⟨⟨a, mid⟩, hfirst, h⟩ := Option.bind_eq_some_iff.1 hread
  obtain ⟨used, rfl, hused⟩ := hr bs a mid hfirst
  obtain ⟨used', rfl, hused'⟩ := hnext a mid b rest h
  refine ⟨used ++ used', (List.append_assoc ..).symm, fun tail => ?_⟩
  rw [List.append_assoc]
  exact Option.bind_eq_some_iff.2 ⟨(a, used' ++ tail), hused _, hused' tail⟩

/-- A reader that goes on if there is a value to go on with. -/
theorem ofOption (o : Option γ) {next : γ → Reader α} (hnext : ∀ c, (next c).Local) :
    Reader.Local fun bs => o >>= fun c => next c bs := by
  cases o with
  | none => exact fail
  | some c => exact hnext c

/-- A choice that does not depend on the bytes is between two such readers. -/
theorem ite {p : Prop} [Decidable p] {r s : Reader α} (hr : r.Local) (hs : s.Local) :
    Reader.Local fun bs => if p then r bs else s bs := by
  by_cases h : p
  · simpa only [if_pos h] using hr
  · simpa only [if_neg h] using hs

/-- What is made of a value does not change how far its bytes reach. -/
theorem mapValue {r : Reader α} (h : r.Local) (f : α → β) : (r.mapValue f).Local := by
  intro bs b rest hread
  obtain ⟨⟨a, mid⟩, hr, hb⟩ := Option.map_eq_some_iff.1 hread
  obtain ⟨rfl, rfl⟩ := Prod.mk.inj hb
  obtain ⟨used, rfl, hused⟩ := h bs a mid hr
  exact ⟨used, rfl, hused.mapValue f⟩

end Reader.Local

/-! ### Bytes and numbers -/

/-- A number of bytes is taken off the front whatever follows them. -/
theorem local_readRaw (n : Nat) : (readRaw n).Local := by
  intro bs raw rest h
  unfold readRaw at h
  split at h
  · cases h
  · case isFalse hlen =>
    obtain ⟨rfl, rfl⟩ := Prod.mk.inj (Option.some.inj h)
    have hn : (bs.take n).length = n := by
      rw [List.length_take]
      omega
    refine ⟨bs.take n, (List.take_append_drop n bs).symm, fun tail => ?_⟩
    have hraw := readRaw_append (bs.take n) tail
    rwa [hn] at hraw

/-- So is a number written in them. -/
theorem local_readNatBE (width : Nat) : (readNatBE width).Local :=
  (local_readRaw width).mapValue Bytes.toNatBE

/-- So is a signed one. -/
theorem local_readIntBE (width : Nat) : (readIntBE width).Local :=
  (local_readNatBE width).mapValue fun n =>
    if 2 * n < Bytes.capacity width then (n : Int) else (n : Int) - Bytes.capacity width

/-! ### Markers -/

/-- Behind its first byte a marker is read by a reader that does not look ahead. -/
theorem local_behind_marker (b : UInt8) : Reader.Local fun rest => readHead (b :: rest) := by
  refine .ite (.pure _) (.ite (.pure _) (.ite (.pure _) (.ite (.pure _) (.ite (.pure _) ?_))))
  generalize b.toNat = marker
  intro bs head rest h
  split at h
  all_goals first
    | exact Reader.Local.pure _ bs head rest h
    | exact (local_readNatBE _).mapValue _ bs head rest h
    | exact (local_readIntBE _).mapValue _ bs head rest h
    | exact (local_readRaw _).mapValue _ bs head rest h
    | cases h

/-- The first byte of a marker says how many more belong to it. -/
theorem local_readHead : Reader.Local readHead := by
  intro bs head rest h
  cases bs with
  | nil => cases h
  | cons b bs =>
    obtain ⟨used, rfl, hused⟩ := local_behind_marker b bs head rest h
    exact ⟨b :: used, rfl, hused⟩

/-! ### Readers that begin with a marker -/

/-- The reader takes a marker off the front, and goes on by what the marker announces, without
looking ahead. -/
structure Reader.ByHead (r : Reader α) : Prop where
  /-- Without a marker there is no value. -/
  needs_head : ∀ bs, readHead bs = none → r bs = none
  /-- How it goes on behind a marker. -/
  goes_on : ∀ head, ∃ next : Reader α, next.Local ∧
    ∀ bs rest, readHead bs = some (head, rest) → r bs = next rest

namespace Reader.ByHead

/-- A reader that goes on by the marker looks no further than the marker and what it announces. -/
theorem isLocal {r : Reader α} (h : r.ByHead) : r.Local := by
  intro bs a rest hread
  cases hhead : readHead bs with
  | none =>
    rw [h.needs_head bs hhead] at hread
    cases hread
  | some found =>
    obtain ⟨head, mid⟩ := found
    obtain ⟨next, hnext, hr⟩ := h.goes_on head
    rw [hr bs mid hhead] at hread
    obtain ⟨used, rfl, hused⟩ := local_readHead bs head mid hhead
    obtain ⟨used', rfl, hused'⟩ := hnext mid a rest hread
    refine ⟨used ++ used', (List.append_assoc ..).symm, fun tail => ?_⟩
    rw [List.append_assoc, hr _ _ (hused _), hused']

/-- Making something else of the value leaves the marker in front. -/
theorem mapValue {r : Reader α} (h : r.ByHead) (f : α → β) : (r.mapValue f).ByHead where
  needs_head bs hhead := by rw [Reader.mapValue, h.needs_head bs hhead]; rfl
  goes_on head := by
    obtain ⟨next, hnext, hr⟩ := h.goes_on head
    exact ⟨next.mapValue f, hnext.mapValue f, fun bs rest hhead => by
      rw [Reader.mapValue, hr bs rest hhead]; rfl⟩

/-- The marker of an absent value is no value's first one, or it is read as absent all the same. -/
theorem option {value : Reader α} (h : value.ByHead) : (readOption value).ByHead where
  needs_head bs hhead := by
    rw [readOption, hhead]
    exact (h.mapValue some).needs_head bs hhead
  goes_on head := by
    cases head with
    | nil => exact ⟨_, .pure none, fun bs rest hhead => by rw [readOption, hhead]⟩
    | _ =>
      obtain ⟨next, hnext, hr⟩ := (h.mapValue some).goes_on _
      exact ⟨next, hnext, fun bs rest hhead => by rw [readOption, hhead]; exact hr bs rest hhead⟩

end Reader.ByHead

/-! ### Scalars -/

/-- An integer within bounds is told by its marker alone. -/
theorem byHead_readInt (low high : Int) : (readInt low high).ByHead where
  needs_head bs hhead := by rw [readInt, hhead]
  goes_on head := by
    cases head with
    | unsigned n =>
      exact ⟨_, .ite (.pure (n : Int)) .fail, fun bs rest hhead => by rw [readInt, hhead]⟩
    | signed i => exact ⟨_, .ite (.pure i) .fail, fun bs rest hhead => by rw [readInt, hhead]⟩
    | _ => exact ⟨_, .fail, fun bs rest hhead => by rw [readInt, hhead]⟩

/-- So is one that is not negative. -/
theorem byHead_readNat (bound : Nat) : (readNat bound).ByHead :=
  (byHead_readInt 0 (bound - 1)).mapValue Int.toNat

/-- A text of so many bytes, which have to be one. -/
theorem local_textBehind (n : Nat) : Reader.Local fun rest =>
    readRaw n rest >>= fun (raw, rest) =>
      (Utf8.decode raw).toOption >>= fun s => some (s, rest) :=
  (local_readRaw n).bind fun raw => .ofOption (Utf8.decode raw).toOption fun s => .pure s

/-- A marker announces the length of a text. -/
theorem byHead_readString : Reader.ByHead readString where
  needs_head bs hhead := by rw [readString, hhead]
  goes_on head := by
    cases head with
    | str n | bin n =>
      refine ⟨_, local_textBehind n, fun bs rest hhead => ?_⟩
      rw [readString, hhead]
      dsimp only
      rcases readRaw n rest with _ | ⟨raw, rest⟩
      · rfl
      · dsimp only [bind, Option.bind]
        cases Utf8.decode raw <;> rfl
    | _ => exact ⟨_, .fail, fun bs rest hhead => by rw [readString, hhead]⟩

/-- Truth values are markers of their own. -/
theorem byHead_readBool : Reader.ByHead readBool where
  needs_head bs hhead := by rw [readBool, hhead]
  goes_on head := by
    cases head with
    | bool b => exact ⟨_, .pure b, fun bs rest hhead => by rw [readBool, hhead]⟩
    | _ => exact ⟨_, .fail, fun bs rest hhead => by rw [readBool, hhead]⟩

/-- So is the absent value. -/
theorem byHead_readNil : Reader.ByHead readNil where
  needs_head bs hhead := by rw [readNil, hhead]
  goes_on head := by
    cases head with
    | nil => exact ⟨_, .pure (), fun bs rest hhead => by rw [readNil, hhead]⟩
    | _ => exact ⟨_, .fail, fun bs rest hhead => by rw [readNil, hhead]⟩

/-! ### Sequences and maps -/

/-- As many values as are counted, one behind the other. -/
theorem local_readMany {value : Reader α} (h : value.Local) (n : Nat) :
    (readMany value n).Local := by
  induction n with
  | zero => exact .pure []
  | succ n ih =>
    refine (h.bind fun a => ih.bind fun as => .pure (a :: as)).congr fun bs => ?_
    rw [readMany]
    rcases value bs with _ | ⟨a, rest⟩
    · rfl
    · dsimp only [bind, Option.bind]
      rcases readMany value n rest with _ | ⟨as, rest⟩ <;> rfl

/-- A value behind a key. -/
theorem local_readPair {key : Reader α} {value : Reader β} (hkey : key.Local)
    (hvalue : value.Local) : (readPair key value).Local := by
  refine (hkey.bind fun k => hvalue.mapValue fun v => (k, v)).congr fun bs => ?_
  rw [readPair]
  rcases key bs with _ | ⟨k, rest⟩ <;> rfl

/-- A sequence is an array, or a byte string read byte by byte. -/
theorem byHead_readSeq {value : Reader α} (h : value.Local) (ofByte : UInt8 → Option α) :
    (readSeq value ofByte).ByHead where
  needs_head bs hhead := by rw [readSeq, hhead]
  goes_on head := by
    cases head with
    | array n => exact ⟨_, local_readMany h n, fun bs rest hhead => by rw [readSeq, hhead]⟩
    | bin n =>
      refine ⟨_, (local_readRaw n).bind fun raw => .ofOption (raw.mapM ofByte) fun as => .pure as,
        fun bs rest hhead => ?_⟩
      rw [readSeq, hhead]
      dsimp only
      rcases readRaw n rest with _ | ⟨raw, rest⟩
      · rfl
      · dsimp only [bind, Option.bind]
        cases raw.mapM ofByte <;> rfl
    | _ => exact ⟨_, .fail, fun bs rest hhead => by rw [readSeq, hhead]⟩

/-- A map is a marker with the number of its pairs, and the pairs. -/
theorem byHead_readMap {key : Reader α} {value : Reader β} (hkey : key.Local)
    (hvalue : value.Local) : (readMap key value).ByHead where
  needs_head bs hhead := by rw [readMap, hhead]
  goes_on head := by
    cases head with
    | map n =>
      exact ⟨_, local_readMany (local_readPair hkey hvalue) n, fun bs rest hhead => by
        rw [readMap, hhead]⟩
    | _ => exact ⟨_, .fail, fun bs rest hhead => by rw [readMap, hhead]⟩

/-! ### Values passed over -/

/-- A value that is passed over is passed over to its end and no further, however deeply it is
nested. -/
theorem local_skip (depth : Nat) : (skip depth).Local := by
  induction depth with
  | zero => exact .fail
  | succ depth ih =>
    have hmany (n : Nat) : Reader.Local fun rest =>
        if depth = 0 then none else (readMany (skip depth) n).mapValue (fun _ => ()) rest :=
      .ite .fail ((local_readMany ih n).mapValue fun _ => ())
    refine Reader.ByHead.isLocal ⟨fun bs hhead => by rw [skip, hhead], fun head => ?_⟩
    cases head with
    | nil | bool | unsigned | signed | float =>
      exact ⟨_, .pure (), fun bs rest hhead => by rw [skip, hhead]⟩
    | str n | bin n =>
      exact ⟨_, (local_readRaw n).mapValue fun _ => (), fun bs rest hhead => by rw [skip, hhead]⟩
    | ext n =>
      exact ⟨_, .ite .fail ((local_readRaw (n + 1)).mapValue fun _ => ()), fun bs rest hhead => by
        rw [skip, hhead]⟩
    | array n => exact ⟨_, hmany n, fun bs rest hhead => by rw [skip, hhead]⟩
    | map n => exact ⟨_, hmany (2 * n), fun bs rest hhead => by rw [skip, hhead]⟩

/-! ### Records and variants -/

/-- The name of a field is a text, a byte string or a number in front of its value. -/
theorem byHead_readKey (names : List String) : (readKey names).ByHead where
  needs_head bs hhead := by rw [readKey, hhead]
  goes_on head := by
    cases head with
    | str n | bin n =>
      exact ⟨_, (local_readRaw n).mapValue _, fun bs rest hhead => by rw [readKey, hhead]⟩
    | unsigned n => exact ⟨_, .pure _, fun bs rest hhead => by rw [readKey, hhead]⟩
    | _ => exact ⟨_, .fail, fun bs rest hhead => by rw [readKey, hhead]⟩

/-- The fields of a map in any order, unknown ones passed over. -/
theorem local_readFields (names : List String) (depth : Nat) {field : Nat → σ → Reader σ}
    (h : ∀ i s, (field i s).Local) (n : Nat) (s : σ) :
    (readFields names depth field n s).Local := by
  induction n generalizing s with
  | zero => exact .pure s
  | succ n ih =>
    -- an entry is passed over or taken into the state
    have hentry (key : Option Nat) : Reader.Local fun rest =>
        (key.elim ((skip depth).mapValue fun _ => s) (field · s)) rest >>= fun (s, rest) =>
          readFields names depth field n s rest := by
      cases key with
      | none => exact ((local_skip depth).mapValue fun _ => s).bind ih
      | some i => exact (h i s).bind ih
    refine ((byHead_readKey names).isLocal.bind hentry).congr fun bs => ?_
    rw [readFields]
    rcases readKey names bs with _ | ⟨_ | i, rest⟩
    · rfl
    · dsimp only [bind, Option.bind, Option.elim, Reader.mapValue]
      rcases skip depth rest with _ | ⟨_, rest⟩ <;> rfl
    · dsimp only [bind, Option.bind, Option.elim]
      rcases field i s rest with _ | ⟨s, rest⟩ <;> rfl

/-- A field that may not come twice is read as it is the first time. -/
theorem RecordField.local_readOnce {field : RecordField α} (h : field.read.Local)
    (slot : Option α) : (field.readOnce slot).Local := by
  cases slot with
  | none => exact h.mapValue some
  | some a => exact .fail

/-- A record of one field is a map or an array of one. -/
theorem byHead_readRecord₁ (depth : Nat) {first : RecordField α} (ha : first.read.Local) :
    (readRecord₁ depth first).ByHead where
  needs_head bs hhead := by rw [readRecord₁, hhead]
  goes_on head := by
    cases head with
    | array n =>
      refine ⟨_, .ite (p := n = 1) ha .fail, fun bs rest hhead => ?_⟩
      rw [readRecord₁, hhead]
      split <;> simp_all
    | map n =>
      refine ⟨_, ?_, fun bs rest hhead => by rw [readRecord₁, hhead]⟩
      have hfield (_ : Nat) := RecordField.local_readOnce ha
      exact (local_readFields [first.name] depth hfield n none).bind fun a =>
        .ofOption (first.settle a) .pure
    | _ => exact ⟨_, .fail, fun bs rest hhead => by rw [readRecord₁, hhead]⟩

/-- A record of two fields is a map or an array of two. -/
theorem byHead_readRecord₂ (depth : Nat) {first : RecordField α} {second : RecordField β}
    (ha : first.read.Local) (hb : second.read.Local) :
    (readRecord₂ depth first second).ByHead where
  needs_head bs hhead := by rw [readRecord₂, hhead]
  goes_on head := by
    cases head with
    | array n =>
      refine ⟨_, .ite (p := n = 2) (local_readPair ha hb) .fail, fun bs rest hhead => ?_⟩
      rw [readRecord₂, hhead]
      split <;> simp_all
    | map n =>
      refine ⟨_, ?_, fun bs rest hhead => by rw [readRecord₂, hhead]⟩
      refine (local_readFields [first.name, second.name] depth (fun i s => ?_) n
        (none, none)).bind fun s => .ofOption (first.settle s.1) fun a =>
          .ofOption (second.settle s.2) fun b => .pure (a, b)
      obtain ⟨a, b⟩ := s
      cases i with
      | zero => exact (RecordField.local_readOnce ha a).mapValue (·, b)
      | succ => exact (RecordField.local_readOnce hb b).mapValue (a, ·)
    | _ => exact ⟨_, .fail, fun bs rest hhead => by rw [readRecord₂, hhead]⟩

/-- A record of three fields is a map or an array of three. -/
theorem byHead_readRecord₃ (depth : Nat) {first : RecordField α} {second : RecordField β}
    {third : RecordField γ} (ha : first.read.Local) (hb : second.read.Local)
    (hc : third.read.Local) : (readRecord₃ depth first second third).ByHead where
  needs_head bs hhead := by rw [readRecord₃, hhead]
  goes_on head := by
    cases head with
    | array n =>
      -- three fields in a row
      have hfields := local_readPair ha (local_readPair hb hc)
      refine ⟨_, .ite (p := n = 3) hfields .fail, fun bs rest hhead => ?_⟩
      rw [readRecord₃, hhead]
      split <;> simp_all
    | map n =>
      refine ⟨_, ?_, fun bs rest hhead => by rw [readRecord₃, hhead]⟩
      -- the fields come in any order, so what was read of them so far is carried along
      refine (local_readFields [first.name, second.name, third.name] depth
        (fun i s => ?_) n (none, none, none)).bind fun s =>
          .ofOption (first.settle s.1) fun a => .ofOption (second.settle s.2.1) fun b =>
            .ofOption (third.settle s.2.2) fun c => .pure (a, b, c)
      obtain ⟨a, b, c⟩ := s
      rcases i with _ | _ | i
      · exact (RecordField.local_readOnce ha a).mapValue (·, b, c)
      · exact (RecordField.local_readOnce hb b).mapValue (a, ·, c)
      · exact (RecordField.local_readOnce hc c).mapValue (a, b, ·)
    | _ => exact ⟨_, .fail, fun bs rest hhead => by rw [readRecord₃, hhead]⟩

/-- What a variant holds is a record of one field, or a byte string in place of it. -/
theorem byHead_readContent₁ (depth : Nat) {first : RecordField α} (ha : first.read.Local)
    (ofByte : UInt8 → Option α) : (readContent₁ depth first ofByte).ByHead where
  needs_head bs hhead := by
    rw [readContent₁, hhead]
    exact (byHead_readRecord₁ depth ha).needs_head bs hhead
  goes_on head := by
    cases head with
    | bin n =>
      refine ⟨_, ?_, fun bs rest hhead => by rw [readContent₁, hhead]⟩
      exact (local_readRaw n).bind fun raw => .ofOption (raw.head?.bind ofByte) .pure
    | _ =>
      obtain ⟨next, hnext, hr⟩ := (byHead_readRecord₁ depth ha).goes_on _
      exact ⟨next, hnext, fun bs rest hhead => by
        rw [readContent₁, hhead]; exact hr bs rest hhead⟩

/-- The name of a variant stands like the name of a field. -/
theorem byHead_readVariant (names : List String) : (readVariant names).ByHead where
  needs_head bs hhead := by rw [readVariant, (byHead_readKey names).needs_head bs hhead]
  goes_on head := by
    obtain ⟨next, hnext, hr⟩ := (byHead_readKey names).goes_on head
    refine ⟨_, hnext.bind fun key => .ofOption key .pure, fun bs rest hhead => ?_⟩
    rw [readVariant, hr bs rest hhead]
    rcases next rest with _ | ⟨_ | i, rest⟩ <;> rfl

namespace Format

/-- A variant without content is its name, alone or in a map of one pair. -/
theorem byHead_readPlainVariant (names : List String) : (readPlainVariant names).ByHead where
  needs_head bs hhead := by
    rw [readPlainVariant, hhead]
    exact (byHead_readVariant names).needs_head bs hhead
  goes_on head := by
    cases head with
    | map n =>
      refine ⟨_, .ite (p := n = 1) ((byHead_readVariant names).isLocal.bind fun i =>
        byHead_readNil.isLocal.mapValue fun _ => i) .fail, fun bs rest hhead => ?_⟩
      rw [readPlainVariant, hhead]
      by_cases hn : n = 1
      · subst hn
        rcases hvariant : readVariant names rest with _ | ⟨i, rest⟩ <;> simp [hvariant]
      · rw [if_neg hn]
        split <;> simp_all
    | _ =>
      obtain ⟨next, hnext, hr⟩ := (byHead_readVariant names).goes_on _
      exact ⟨next, hnext, fun bs rest hhead => by
        rw [readPlainVariant, hhead]; exact hr bs rest hhead⟩

/-- A variant with content is a map of one pair, its name and what it holds. -/
theorem byHead_readVariantWith (names : List String) {content : Nat → Reader α}
    (h : ∀ i, (content i).Local) : (readVariantWith names content).ByHead where
  needs_head bs hhead := by rw [readVariantWith, hhead]
  goes_on head := by
    cases head with
    | map n =>
      refine ⟨_, .ite (p := n = 1) ((byHead_readVariant names).isLocal.bind h) .fail,
        fun bs rest hhead => ?_⟩
      rw [readVariantWith, hhead]
      by_cases hn : n = 1
      · subst hn
        rcases hvariant : readVariant names rest with _ | ⟨i, rest⟩ <;> simp [hvariant]
      · rw [if_neg hn]
        split <;> simp_all
    | _ => exact ⟨_, .fail, fun bs rest hhead => by rw [readVariantWith, hhead]⟩

/-! ### Formats -/

theorem local_uint8 : uint8.read.Local := (byHead_readNat 0x100).isLocal.mapValue UInt8.ofNat

theorem local_uint32 : uint32.read.Local :=
  (byHead_readNat 0x100000000).isLocal.mapValue UInt32.ofNat

theorem local_uint64 : uint64.read.Local :=
  (byHead_readNat 0x10000000000000000).isLocal.mapValue UInt64.ofNat

theorem local_int32 : int32.read.Local :=
  (byHead_readInt (-0x80000000) 0x7FFFFFFF).isLocal.mapValue Int32.ofInt

theorem byHead_int64 : int64.read.ByHead :=
  (byHead_readInt (-0x8000000000000000) 0x7FFFFFFFFFFFFFFF).mapValue Int64.ofInt

theorem local_string : string.read.Local := byHead_readString.isLocal

theorem local_byteSeq : byteSeq.read.Local := (byHead_readSeq local_uint8 some).isLocal

theorem local_stringSeq : stringSeq.read.Local :=
  (byHead_readSeq local_string fun _ => none).isLocal

/-- A table is a map from texts. -/
theorem local_table {value : Format α} (h : value.read.Local) : (table value).read.Local :=
  (byHead_readMap local_string h).isLocal.mapValue Table.ofList

/-- A kind is its name, alone or in front of an absent value. -/
theorem local_kind : kind.read.Local := by
  refine ((byHead_readPlainVariant (StateKind.all.map StateKind.tag)).isLocal.bind fun i =>
    .ofOption StateKind.all[i]? .pure).congr fun bs => ?_
  dsimp only [kind]
  rcases readPlainVariant (StateKind.all.map StateKind.tag) bs with _ | ⟨i, rest⟩
  · rfl
  · dsimp only [bind, Option.bind]
    cases StateKind.all[i]? <;> rfl

/-- A descriptor is a record of two fields. -/
theorem local_descriptor : descriptor.read.Local := by
  have hname : (RecordField.required "name" readString).read.Local := local_string
  have hversion : (RecordField.required "version" uint32.read).read.Local := local_uint32
  exact (byHead_readRecord₂ _ hname hversion).isLocal.mapValue fun fields =>
    Descriptor.mk fields.1 fields.2

theorem local_event : event.read.Local := by
  have hid : (RecordField.required "id" uint32.read).read.Local := local_uint32
  have htag : (RecordField.required "tag" readString).read.Local := local_string
  exact (byHead_readRecord₂ _ hid htag).isLocal.mapValue fun fields =>
    Event.mk fields.1 fields.2

theorem local_reading : reading.read.Local := by
  have hsensor : (RecordField.required "sensor" readString).read.Local := local_string
  have hcelsius : (RecordField.required "celsius" int32.read).read.Local := local_int32
  exact (byHead_readRecord₂ _ hsensor hcelsius).isLocal.mapValue fun fields =>
    Reading.mk fields.1 fields.2

theorem local_fineReading : fineReading.read.Local := by
  have hsensor : (RecordField.required "sensor" readString).read.Local := local_string
  have hdegrees : (RecordField.required "millicelsius" int64.read).read.Local :=
    byHead_int64.isLocal
  have hcalibrated : (RecordField.required "calibrated" readBool).read.Local :=
    byHead_readBool.isLocal
  exact (byHead_readRecord₃ _ hsensor hdegrees hcalibrated).isLocal.mapValue fun fields =>
    FineReading.mk fields.1 fields.2.1 fields.2.2

/-- An operator is a variant with one field. -/
theorem byHead_mergeOperatorAt (depth : Nat) : (mergeOperatorAt depth).read.ByHead := by
  have hdelimiter : (RecordField.required "delimiter" uint8.read).read.Local := local_uint8
  exact byHead_readVariantWith _ fun _ =>
    (byHead_readContent₁ (depth - 1) hdelimiter some).isLocal.mapValue _

end Format

end MessagePack

open MessagePack in
/-- What holds of every format that does not look ahead, as a codec of items, holds of the packed
codecs of the catalogue. -/
theorem PackedType.codec_cases {P : Codec Item → Prop} (name : String) (version : UInt32)
    (h : ∀ (α : Type) (format : Format α) (inject : α → Item) (project : Item → Option α),
      format.read.Local → P ((Codec.packed name version format).embed inject project))
    (type : PackedType) : P (type.codec name version) := by
  cases type <;> simp only [PackedType.codec]
  case uint8 => exact h _ Format.uint8 _ _ Format.local_uint8
  case uint32 => exact h _ Format.uint32 _ _ Format.local_uint32
  case int32 => exact h _ Format.int32 _ _ Format.local_int32
  case uint64 => exact h _ Format.uint64 _ _ Format.local_uint64
  case int64 => exact h _ Format.int64 _ _ Format.byHead_int64.isLocal
  case bool => exact h _ Format.bool _ _ byHead_readBool.isLocal
  case text => exact h _ Format.string _ _ Format.local_string
  case unit => exact h _ Format.unit _ _ byHead_readNil.isLocal
  case optional => exact h _ (Format.option Format.int64) _ _ Format.byHead_int64.option.isLocal
  case bytes => exact h _ Format.byteSeq _ _ Format.local_byteSeq
  case texts => exact h _ Format.stringSeq _ _ Format.local_stringSeq
  case table =>
    exact h _ (Format.table Format.int64) _ _ (Format.local_table Format.byHead_int64.isLocal)
  case event => exact h _ Format.event _ _ Format.local_event
  case reading => exact h _ Format.reading _ _ Format.local_reading
  case fineReading => exact h _ Format.fineReading _ _ Format.local_fineReading
  case kind => exact h _ Format.kind _ _ Format.local_kind
  case descriptor => exact h _ Format.descriptor _ _ Format.local_descriptor
  case operator =>
    exact h _ Format.mergeOperator _ _ (Format.byHead_mergeOperatorAt depthLimit).option.isLocal

end AppendLists
