import AppendLists.ListFormat.Decoder
import AppendLists.Proofs.Codec.Forward
import AppendLists.Proofs.ListFormat.Migration
import Mathlib.Logic.Function.Iterate

namespace AppendLists

/-!
# Step-by-step decoding ends

A decoder has no bound of its own, and neither have the loops around it. They end because an element
takes a byte at least, and because a decoder that has failed yields nothing any more.

* `Decoder.after`, `Decoder.reply`: a decoder called again and again;
* `Decoder.pending`: how many calls can still yield something;
* `Decoder.exists_replies`: elements, then one failure at most, then nothing;
* `Decoder.loop`: a loop over a decoder, given so many calls, and `Decoder.exists_loop`, by which it
  ends;
* `Decoder.collecting`, `transforming`, `migrating`: the bodies of the three loops, which come to
  `decodeList`, `transformList` and `migrateList`.
-/

variable {α β σ ρ : Type}

namespace Decoder

/-- The decoder after so many calls. -/
def after (codec : Codec α) (d : Decoder) (calls : Nat) : Decoder :=
  (fun d => (d.next codec).2)^[calls] d

/-- What the call behind so many others yields. -/
def reply (codec : Codec α) (d : Decoder) (calls : Nat) : Option (Except StateError α) :=
  ((d.after codec calls).next codec).1

/-- A decoder that has failed yields nothing; another one has the unread bytes to yield from. -/
def pending (d : Decoder) : Nat := if d.failed then 0 else d.cursor.remaining

/-- Call the decoder until it yields nothing, and `finish` then. What it yields goes to `body` with
the decoder behind it and the state of the loop; `body` goes on with another state or leaves. There
is no result after so many calls without an end. -/
def loop (codec : Codec α) (body : Decoder → Except StateError α → σ → σ ⊕ ρ) (finish : σ → ρ) :
    Nat → Decoder → σ → Option ρ
  | 0, _, _ => none
  | calls + 1, d, s =>
    match d.next codec with
    | (none, _) => some (finish s)
    | (some yielded, d') =>
      match body d' yielded s with
      | .inl s' => loop codec body finish calls d' s'
      | .inr result => some result

variable {codec : Codec α}

/-! ### One call -/

/-- A decoder that failed has nothing more to say. -/
theorem next_failed {d : Decoder} (h : d.failed = true) : d.next codec = (none, d) := by
  rw [next, if_pos h]

variable {c : Cursor} {begun : Nat}

/-- At the end of input there is no reply. -/
theorem next_end (h : c.rest = []) :
    Decoder.next codec ⟨c, begun, false⟩ = (none, ⟨c, c.position, false⟩) := by
  simp [next, decodeNext_end h]

/-- An element is replied, and the cursor moves behind it. -/
theorem next_element {x : α} {c' : Cursor} (h : decodeNext codec c = .ok (some (x, c'))) :
    Decoder.next codec ⟨c, begun, false⟩ = (some (.ok x), ⟨c', c.position, false⟩) := by
  simp [next, h]

/-- An error is replied, and the cursor stays where the element began. -/
theorem next_error {e : StateError} (h : decodeNext codec c = .error e) :
    Decoder.next codec ⟨c, begun, false⟩ = (some (.error e), ⟨c, c.position, true⟩) := by
  simp [next, h]

/-- Something is left to fail on. -/
theorem remaining_pos_of_error {e : StateError} (h : decodeNext codec c = .error e) :
    0 < c.remaining := by
  rw [← Cursor.length_rest, List.length_pos_iff]
  intro hend
  rw [decodeNext_end hend] at h
  cases h

/-- Every yield of a codec that does not go back leaves fewer of them. -/
theorem pending_next (hc : codec.Forward) {d d' : Decoder} {yielded : Except StateError α}
    (h : d.next codec = (some yielded, d')) : d'.pending < d.pending := by
  obtain ⟨c, begun, failed⟩ := d
  cases failed with
  | true =>
    rw [next_failed rfl] at h
    cases h
  | false =>
    rcases hnext : decodeNext codec c with e | _ | ⟨x, c'⟩
    · rw [next_error hnext] at h
      obtain ⟨-, rfl⟩ := Prod.mk.inj h
      exact remaining_pos_of_error hnext
    · rw [next_end (decodeNext_eq_none hnext)] at h
      cases h
    · rw [next_element hnext] at h
      obtain ⟨-, rfl⟩ := Prod.mk.inj h
      exact hc.remaining_decodeNext hnext

/-! ### All calls -/

theorem reply_zero (d : Decoder) : d.reply codec 0 = (d.next codec).1 := rfl

/-- The later replies are those of the decoder that is left. -/
theorem reply_succ (d : Decoder) (calls : Nat) :
    d.reply codec (calls + 1) = (d.next codec).2.reply codec calls := rfl

theorem after_succ (d : Decoder) (calls : Nat) :
    d.after codec (calls + 1) = ((d.after codec calls).next codec).2 :=
  Function.iterate_succ_apply' _ _ _

/-- A decoder that stays as it is and yields nothing never yields anything. -/
theorem reply_eq_none {d : Decoder} (h : d.next codec = (none, d)) (calls : Nat) :
    d.reply codec calls = none := by
  induction calls with
  | zero => rw [reply_zero, h]
  | succ calls ih => rw [reply_succ, h, ih]

/-- The decoder yields the elements up to the end of input or to a step that fails, then the failure
if there is one, and then nothing. -/
theorem exists_replies (hc : codec.Forward) (c : Cursor) (begun : Nat) :
    ∃ (xs : List α) (failure : Option StateError),
      xs.length + failure.toList.length ≤ c.remaining ∧
      (∀ calls, Decoder.reply codec ⟨c, begun, false⟩ calls
        = (xs.map .ok ++ failure.toList.map .error)[calls]?) ∧
      codec.decodeFrom c = some (failure.elim (.ok xs) .error) := by
  induction hc.ends c generalizing begun with
  | @failed c e hnext =>
    refine ⟨[], some e, remaining_pos_of_error hnext, fun calls => ?_,
      decodeFrom_of_next_error hnext⟩
    -- the call behind the failure, and every later one, finds the decoder failed
    cases calls with
    | zero => rw [reply_zero, next_error hnext]; rfl
    | succ calls => rw [reply_succ, next_error hnext, reply_eq_none (next_failed rfl)]; rfl
  | @ended c hnext =>
    have hend := decodeNext_eq_none hnext
    refine ⟨[], none, Nat.zero_le _, fun calls => ?_, decodeFrom_end hend⟩
    cases calls with
    | zero => rw [reply_zero, next_end hend]; rfl
    | succ calls => rw [reply_succ, next_end hend, reply_eq_none (next_end hend)]; rfl
  | @next c c' x hnext _ ih =>
    obtain ⟨xs, failure, hlength, hreplies, hdecode⟩ := ih c.position
    refine ⟨x :: xs, failure, ?_, fun calls => ?_, ?_⟩
    · -- the element took a byte at least
      have hless := hc.remaining_decodeNext hnext
      rw [List.length_cons]
      omega
    · cases calls with
      | zero => rw [reply_zero, next_element hnext]; rfl
      | succ calls => rw [reply_succ, next_element hnext, hreplies]; rfl
    · rw [decodeFrom_next hnext, hdecode]
      cases failure <;> rfl

/-! ### Positions -/

/-- A call never goes back. -/
theorem ahead_next (hc : codec.Forward) (d : Decoder) : d.cursor.Ahead (d.next codec).2.cursor := by
  obtain ⟨c, begun, failed⟩ := d
  cases failed with
  | true =>
    rw [next_failed rfl]
    exact .refl c
  | false =>
    rcases hnext : decodeNext codec c with e | _ | ⟨x, c'⟩
    · rw [next_error hnext]
      exact .refl c
    · rw [next_end (decodeNext_eq_none hnext)]
      exact .refl c
    · rw [next_element hnext]
      exact hc.ahead_of_decodeNext hnext

/-- No number of calls leads back. -/
theorem ahead_after (hc : codec.Forward) (d : Decoder) (calls : Nat) :
    d.cursor.Ahead (d.after codec calls).cursor := by
  induction calls with
  | zero => exact .refl _
  | succ calls ih =>
    rw [after_succ]
    exact ih.trans (ahead_next hc _)

/-- An element begins where the decoder stood, and the decoder moves on behind it. -/
theorem position_of_next (hc : codec.Forward) {d d' : Decoder} {x : α}
    (h : d.next codec = (some (.ok x), d')) :
    d.cursor.position < d'.cursor.position ∧ d'.elementStart = d.cursor.position := by
  obtain ⟨c, begun, failed⟩ := d
  cases failed with
  | true =>
    rw [next_failed rfl] at h
    cases h
  | false =>
    rcases hnext : decodeNext codec c with e | _ | ⟨y, c'⟩
    · rw [next_error hnext] at h
      cases h
    · rw [next_end (decodeNext_eq_none hnext)] at h
      cases h
    · rw [next_element hnext] at h
      obtain ⟨-, rfl⟩ := Prod.mk.inj h
      have hahead := hc.ahead_of_decodeNext hnext
      have hmoved := hahead.remaining_lt_iff.1 (hc.remaining_decodeNext hnext)
      exact ⟨Nat.lt_of_le_of_ne hahead.position_le hmoved.symm, rfl⟩

/-! ### Loops -/

variable {body : Decoder → Except StateError α → σ → σ ⊕ ρ} {finish : σ → ρ}

/-- A loop ends for every body, given one call more than can yield something. -/
theorem exists_loop (hc : codec.Forward) {calls : Nat} {d : Decoder} (h : d.pending < calls) (s : σ) :
    ∃ result, loop codec body finish calls d s = some result := by
  induction calls generalizing d s with
  | zero => exact (Nat.not_lt_zero _ h).elim
  | succ calls ih =>
    rw [loop]
    rcases hnext : d.next codec with ⟨_ | yielded, d'⟩
    · exact ⟨finish s, rfl⟩
    · have hless := pending_next hc hnext
      rcases hbody : body d' yielded s with s' | result
      · obtain ⟨result, hloop⟩ := ih (by omega : d'.pending < calls) s'
        exact ⟨result, by simp only [hbody, hloop]⟩
      · exact ⟨result, by simp only [hbody]⟩

/-- A loop comes to what a recursion along the elements comes to, if a turn of the one is a turn of the
other: at the end of input, at a failure, and at an element, where both leave or both go on. -/
theorem loop_eq (hc : codec.Forward) (body : Decoder → Except StateError α → σ → σ ⊕ ρ)
    (finish : σ → ρ) (result : Cursor → σ → Option ρ)
    (hend : ∀ c s, c.rest = [] → result c s = some (finish s))
    (herror : ∀ c s e, decodeNext codec c = .error e →
      ∃ r, body ⟨c, c.position, true⟩ (.error e) s = .inr r ∧ result c s = some r)
    (helement : ∀ c s x c', decodeNext codec c = .ok (some (x, c')) →
      (∃ r, body ⟨c', c.position, false⟩ (.ok x) s = .inr r ∧ result c s = some r)
        ∨ ∃ s', body ⟨c', c.position, false⟩ (.ok x) s = .inl s' ∧ result c s = result c' s')
    {calls : Nat} {c : Cursor} (h : c.remaining < calls) (begun : Nat) (s : σ) :
    loop codec body finish calls ⟨c, begun, false⟩ s = result c s := by
  -- each call leaves fewer bytes than there are calls left
  induction calls generalizing c begun s with
  | zero => exact (Nat.not_lt_zero _ h).elim
  | succ calls ih =>
    rw [loop]
    rcases hnext : decodeNext codec c with e | _ | ⟨x, c'⟩
    · obtain ⟨r, hleave, hresult⟩ := herror c s e hnext
      simp only [next_error hnext, hleave, hresult]
    · have hrest := decodeNext_eq_none hnext
      simp only [next_end hrest, hend c s hrest]
    · have hless := hc.remaining_decodeNext hnext
      simp only [next_element hnext]
      rcases helement c s x c' hnext with ⟨r, hleave, hresult⟩ | ⟨s', hgo, hsame⟩
      · simp only [hleave, hresult]
      · simp only [hgo, hsame, ih (by omega : c'.remaining < calls)]

/-! ### The loops over written lists -/

/-- Collect the elements; a failure ends it. -/
def collecting (_ : Decoder) (yielded : Except StateError α) (xs : List α) :
    List α ⊕ Except StateError (List α) :=
  match yielded with
  | .error e => .inr (.error e)
  | .ok x => .inl (xs ++ [x])

/-- Collecting the elements is decoding the list. -/
theorem loop_collecting (hc : codec.Forward) (c : Cursor) {calls : Nat} (h : c.remaining < calls) :
    loop codec collecting .ok calls ⟨c, 0, false⟩ [] = codec.decodeFrom c := by
  -- on the way the elements collected stand in front of those that are still to be read
  have hloop := loop_eq hc collecting .ok
    (fun c xs => (codec.decodeFrom c).map (Except.map (xs ++ ·)))
    (fun c xs hend => ?_) (fun c xs e hnext => ?_) (fun c xs x c' hnext => ?_) h 0 []
  · rw [hloop]
    rcases codec.decodeFrom c with _ | _ | _ <;> rfl
  · rw [decodeFrom_end hend]
    exact congrArg (some ∘ Except.ok) (List.append_nil xs)
  · exact ⟨_, rfl, by rw [decodeFrom_of_next_error hnext]; rfl⟩
  · refine .inr ⟨xs ++ [x], rfl, ?_⟩
    rw [decodeFrom_next hnext]
    rcases codec.decodeFrom c' with _ | _ | _ <;> simp [Except.map]

/-- Transform the elements; `kept` holds the survivors so far, latest first. -/
def transforming (t : ElementTransformer α) (d : Decoder) (yielded : Except StateError α)
    (kept : List α) : List α ⊕ Except StateError (Option Bytes) :=
  match yielded with
  | .error e => .inr (.error e)
  | .ok x =>
    match t.apply x with
    | none => .inl kept
    | some y =>
      match t.strategy with
      | .stopOnFirstIncluded => .inr (.ok (some d.suffix))
      | .transformAll => .inl (y :: kept)

/-- The survivors written, if there are any. -/
def survivors (codec : Codec α) (kept : List α) : Except StateError (Option Bytes) :=
  if kept.isEmpty then .ok none else (encodeList codec kept.reverse).map some

/-- Transforming the elements one by one is transforming the list. -/
theorem loop_transforming (hc : codec.Forward) (t : ElementTransformer α) (c : Cursor) {calls : Nat}
    (h : c.remaining < calls) :
    loop codec (transforming t) (survivors codec) calls ⟨c, 0, false⟩ []
      = codec.transformFrom t c [] := by
  refine loop_eq hc (transforming t) (survivors codec) (codec.transformFrom t)
    (fun c kept hend => ?_) (fun c kept e hnext => ?_) (fun c kept x c' hnext => ?_) h 0 []
  · rw [transformFrom_end hend, survivors]
  · exact ⟨_, rfl, transformFrom_of_next_error hnext kept⟩
  · -- what happens to an element is decided by the transformer and then by the strategy
    cases ht : t.apply x with
    | none =>
      exact .inr ⟨kept, by simp only [transforming, ht], transformFrom_dropped hnext ht kept⟩
    | some y =>
      cases hstrategy : t.strategy with
      | transformAll =>
        exact .inr ⟨y :: kept, by simp only [transforming, ht, hstrategy],
          transformFrom_kept hnext ht hstrategy kept⟩
      | stopOnFirstIncluded =>
        -- the decoder has moved on, but it remembers where the element began
        exact .inl ⟨_, by simp only [transforming, ht, hstrategy, suffix],
          transformFrom_stopped hnext ht hstrategy kept⟩

/-- The end of a migration: the number of elements, and the buffer. -/
def migrated (progress : Nat × Bytes) : Except StateError Nat × Bytes :=
  (.ok progress.1, progress.2)

/-- Migrate the elements; the state is the number of elements so far and the buffer. -/
def migrating (prior : Codec α) (new : Codec β) (convert : ElementMigration α β) (d : Decoder)
    (yielded : Except StateError α) (progress : Nat × Bytes) :
    (Nat × Bytes) ⊕ (Except StateError Nat × Bytes) :=
  let (count, out) := progress
  match yielded with
  | .error e => .inr (.error (.migration (.decoding count d.elementStart prior.descriptor) e), out)
  | .ok x =>
    match convert x with
    | .error e =>
      .inr (.error (.migration (.converting count prior.descriptor new.descriptor) e), out)
    | .ok y =>
      match new.write y out with
      | (.error e, out) => .inr (.error (.migration (.encoding count new.descriptor) e), out)
      | (.ok (), out) => .inl (count + 1, if d.cursor.isEmpty then out else out ++ [delimiter])

/-- Migrating the elements one by one is migrating the list. -/
theorem loop_migrating {prior : Codec α} (hc : prior.Forward) (new : Codec β)
    (convert : ElementMigration α β) (c : Cursor) (out : Bytes) {calls : Nat}
    (h : c.remaining < calls) :
    loop prior (migrating prior new convert) migrated calls ⟨c, 0, false⟩ (0, out)
      = prior.migrateFrom new convert 0 c out := by
  refine loop_eq hc (migrating prior new convert) migrated
    (fun c progress => prior.migrateFrom new convert progress.1 c progress.2)
    (fun c (count, out) hend => migrateFrom_of_end hend)
    (fun c (count, out) e hnext => ?_) (fun c (count, out) x c' hnext => ?_) h 0 (0, out)
  · exact ⟨_, rfl, migrateFrom_of_next_error hnext⟩
  · -- an element is converted and then written, and either can fail
    cases hy : convert x with
    | error e =>
      exact .inl ⟨_, by simp only [migrating, hy], migrateFrom_of_convert_error hnext hy⟩
    | ok y =>
      rcases hwrite : new.write y out with ⟨e | _, out'⟩
      · exact .inl ⟨_, by simp only [migrating, hy, hwrite],
          migrateFrom_of_write_error hnext hy hwrite⟩
      · exact .inr ⟨(count + 1, if c'.isEmpty then out' else out' ++ [delimiter]),
          by simp only [migrating, hy, hwrite], migrateFrom_of_write hnext hy hwrite⟩

/-- A codec that does not go back may consume nothing, fail anywhere or read nonsense: decoding some
bytes with it yields elements and at most one failure behind them, together no more than there are
bytes, and nothing afterwards. Every element begins where the decoder stood, which moves on within
the bytes. So every loop over the decoder ends after one call more than there are bytes, whatever it
does, and those that collect, transform and migrate a list come to what these do, which end therefore
too. -/
theorem decoding_ends (hc : codec.Forward) (bs : Bytes) :
    (∃ (xs : List α) (failure : Option StateError),
      xs.length + failure.toList.length ≤ bs.length ∧
      (∀ calls, (start bs).reply codec calls
        = (xs.map .ok ++ failure.toList.map .error)[calls]?) ∧
      decodeList codec (some bs) = failure.elim (.ok xs) .error) ∧
    (∀ calls x, (start bs).reply codec calls = some (.ok x) →
      let before := (start bs).after codec calls
      let behind := (start bs).after codec (calls + 1)
      before.cursor.position < behind.cursor.position ∧ behind.cursor.position ≤ bs.length ∧
        behind.elementStart = before.cursor.position) ∧
    (∀ calls, bs.length < calls →
      (∀ (σ ρ : Type) (body : Decoder → Except StateError α → σ → σ ⊕ ρ) (finish : σ → ρ) (s : σ),
        ∃ result, loop codec body finish calls (start bs) s = some result) ∧
      loop codec collecting .ok calls (start bs) [] = some (decodeList codec (some bs)) ∧
      (∀ t : ElementTransformer α,
        loop codec (transforming t) (survivors codec) calls (start bs) []
          = some (transformList codec t (some bs))) ∧
      ∀ (β : Type) (new : Codec β) (convert : ElementMigration α β) (out : Bytes),
        (loop codec (migrating codec new convert) migrated calls (start bs) (0, out)).map
          (cutBack out) = some (migrateList codec new convert bs out)) ∧
    codec.decodeFrom (Cursor.ofBytes bs) = some (decodeList codec (some bs)) ∧
    (∀ t : ElementTransformer α, codec.transformFrom t (Cursor.ofBytes bs) []
      = some (transformList codec t (some bs))) ∧
    ∀ (β : Type) (new : Codec β) (convert : ElementMigration α β) (out : Bytes),
      migrateRun codec new convert bs out = some (migrateList codec new convert bs out) := by
  have hdecode : codec.decodeFrom (Cursor.ofBytes bs) = some (decodeList codec (some bs)) :=
    hc.decodeList_eq_iff.1 rfl
  have htransform : ∀ t : ElementTransformer α, codec.transformFrom t (Cursor.ofBytes bs) []
      = some (transformList codec t (some bs)) := by
    intro t
    -- the transformation is a loop, and that one ends
    have hloop : ∃ r, loop codec (transforming t) (survivors codec) (bs.length + 1) (start bs) []
        = some r := exists_loop hc (Nat.lt_succ_self bs.length) []
    rw [start, loop_transforming hc t (Cursor.ofBytes bs) (Nat.lt_succ_self bs.length)] at hloop
    obtain ⟨r, hr⟩ := hloop
    rw [transformList, hr, Option.await_some]
  have hmigrate : ∀ (β : Type) (new : Codec β) (convert : ElementMigration α β) (out : Bytes),
      migrateRun codec new convert bs out = some (migrateList codec new convert bs out) := by
    intro β new convert out
    obtain ⟨r, hr⟩ := (hc.ends (Cursor.ofBytes bs)).exists_migrateRun new convert out
    rw [migrateList, hr, Option.await_some]
  refine ⟨?_, fun calls x hreply => ?_, fun calls hcalls => ?_, hdecode, htransform, hmigrate⟩
  · obtain ⟨xs, failure, hlength, hreplies, hread⟩ := exists_replies hc (Cursor.ofBytes bs) 0
    exact ⟨xs, failure, hlength, hreplies, decodeList_eq hread⟩
  · -- the call that yields the element, from the decoder it is made on
    have hnext : ((start bs).after codec calls).next codec
        = (some (.ok x), (start bs).after codec (calls + 1)) := by
      rw [after_succ, ← hreply]
      rfl
    obtain ⟨hless, hstart⟩ := position_of_next hc hnext
    have hbuffer := (ahead_after hc (start bs) (calls + 1)).buffer_eq
    refine ⟨hless, ?_, hstart⟩
    have hle := ((start bs).after codec (calls + 1)).cursor.position_le
    rwa [hbuffer] at hle
  · refine ⟨fun σ ρ body finish s => exists_loop hc hcalls s, ?_, fun t => ?_,
      fun β new convert out => ?_⟩
    · rw [start, loop_collecting hc _ hcalls, hdecode]
    · rw [start, loop_transforming hc t _ hcalls, htransform]
    · rw [start, loop_migrating hc new convert _ out hcalls, ← hmigrate]
      rfl

/-- Texts without a frame in front of two delimiters in a row: one text, one failure, and then
nothing. -/
theorem decoding_ends_doubled_delimiter :
    let bs : Bytes := [0x61, delimiter, delimiter, 0x62]
    Codec.unframed.Forward ∧
      (∃ (xs : List String) (failure : Option StateError),
        xs.length + failure.toList.length ≤ bs.length ∧
        (∀ calls, (start bs).reply Codec.unframed calls
          = (xs.map .ok ++ failure.toList.map .error)[calls]?) ∧
        decodeList Codec.unframed (some bs) = failure.elim (.ok xs) .error) ∧
      (start bs).reply Codec.unframed 0 = some (.ok "a") ∧
      (start bs).reply Codec.unframed 1
        = some (.error (.corrupt (.noProgress "unframed" 2))) ∧
      ∀ calls, (start bs).reply Codec.unframed (calls + 2) = none := by
  intro bs
  have hfailed : (((start bs).next Codec.unframed).2.next Codec.unframed).2.failed = true := by
    decide +kernel
  refine ⟨Codec.forward_unframed, (decoding_ends Codec.forward_unframed bs).1,
    by with_unfolding_all rfl, ?_, fun calls => ?_⟩
  · rw [reply_succ]
    show (((start [0x61, delimiter, delimiter, 0x62]).next Codec.unframed).2.next
      Codec.unframed).1 = _
    with_unfolding_all rfl
  · rw [reply_succ, reply_succ, reply_eq_none (next_failed hfailed)]

end Decoder

end AppendLists
