import Mathlib.Data.List.Basic
import AppendLists.Proofs.Codec.PositionFree
import AppendLists.Proofs.ListFormat.TransformAll

namespace AppendLists

/-!
# Stopping at the first element that stays

A transformer that stops at the first element it keeps hands back the bytes from that element on. It
reads the elements before that one and the one itself, so damage further behind goes unnoticed, and
the bytes are what transforming every element would write as long as everything behind the first
kept element is kept as it is.

* `Codec.PositionFree.rest_of_reads`, `decodeNext_of_rest`: the bytes that are left unread, and what
  is read of the same bytes elsewhere;
* `Codec.Ends.exists_undecided`: how far a transformer reads before it keeps an element;
* `transformFrom_of_reads`: what is read up to there;
* `ElementTransformer.Monotone`, `filterMap_of_monotone`: everything behind a kept element stays as
  it is;
* `EarlyExit`, `Codec.PositionFree.transformList_eq_iff`: how a transformer that stops comes out;
* `Codec.PositionFree.transformList_of_stop`: the same in terms of the bytes, and beside
  transforming every element.
-/

variable {α : Type} {codec : Codec α} {t : ElementTransformer α}

/-! ### The bytes that are read -/

namespace Codec.PositionFree

variable (hfree : codec.PositionFree)
include hfree

/-- Reading moves the cursor only. -/
theorem buffer_of_reads {c d : Cursor} {xs : List α} (h : codec.Reads c xs d) :
    d.buffer = c.buffer := by
  induction h with
  | here c => rfl
  | next hnext _ ih => rw [ih, (hfree.forward.ahead_of_decodeNext hnext).buffer_eq]

/-- What is unread behind the elements read. -/
theorem rest_of_reads {bs : Bytes} {c : Cursor} {xs : List α}
    (h : codec.Reads (Cursor.ofBytes bs) xs c) : c.rest = bs.drop c.position := by
  unfold Cursor.rest
  rw [hfree.buffer_of_reads h]
  rfl

/-- At cursors with the same bytes unread, the same element comes next. -/
theorem decodeNext_of_rest {c d c' : Cursor} {x : α} (hrest : c.rest = d.rest)
    (h : decodeNext codec c = .ok (some (x, c'))) :
    ∃ d', decodeNext codec d = .ok (some (x, d')) ∧ c'.rest = d'.rest := by
  obtain ⟨hne, e, hdecode, hmoved, hbehind⟩ := decodeNext_eq_some_iff.1 h
  obtain ⟨n, rfl, hd⟩ := hfree c d hrest x e hdecode
  have hskip : (c.skip n).rest = (d.skip n).rest := by simp [hrest]
  -- the one cursor has moved if fewer bytes are left behind it, and then so has the other
  have hmoved' : (d.skip n).position ≠ d.position := by
    rw [← (Cursor.Ahead.skip c n).remaining_lt_iff] at hmoved
    rw [← (Cursor.Ahead.skip d n).remaining_lt_iff]
    rwa [← Cursor.length_rest, ← Cursor.length_rest, hskip, hrest, Cursor.length_rest,
      Cursor.length_rest] at hmoved
  rw [hrest] at hne
  rw [hskip] at hbehind
  rcases hbehind with ⟨hend, rfl⟩ | ⟨rest, hmore, rfl⟩
  · exact ⟨d.skip n, decodeNext_eq_some_iff.2 ⟨hne, _, hd, hmoved', .inl ⟨hend, rfl⟩⟩, hskip⟩
  · exact ⟨(d.skip n).skip 1,
      decodeNext_eq_some_iff.2 ⟨hne, _, hd, hmoved', .inr ⟨rest, hmore, rfl⟩⟩, by simp [hrest]⟩

end Codec.PositionFree

/-! ### Elements that are dropped, and the end of that -/

/-- Where reading ends, a transformer reads on until the input ends, a step fails, or it keeps an
element. -/
theorem Codec.Ends.exists_undecided {c : Cursor} (h : codec.Ends c) (t : ElementTransformer α) :
    ∃ dropped d, codec.Reads c dropped d ∧ (∀ x ∈ dropped, t.apply x = none) ∧
      (d.rest = [] ∨ (∃ e, decodeNext codec d = .error e) ∨
        ∃ x y d', decodeNext codec d = .ok (some (x, d')) ∧ t.apply x = some y) := by
  induction h with
  | @failed c e hnext =>
    exact ⟨[], c, .here c, List.forall_mem_nil _, .inr (.inl ⟨e, hnext⟩)⟩
  | @ended c hnext =>
    exact ⟨[], c, .here c, List.forall_mem_nil _, .inl (decodeNext_eq_none hnext)⟩
  | @next c c' x hnext _ ih =>
    cases ht : t.apply x with
    | some y =>
      exact ⟨[], c, .here c, List.forall_mem_nil _, .inr (.inr ⟨x, y, c', hnext, ht⟩)⟩
    | none =>
      obtain ⟨dropped, d, hreads, hdropped, hstop⟩ := ih
      exact ⟨x :: dropped, d, .next hnext hreads, List.forall_mem_cons.2 ⟨ht, hdropped⟩, hstop⟩

/-- Dropped elements leave no trace. -/
theorem transformFrom_of_reads {c d : Cursor} {dropped : List α} (h : codec.Reads c dropped d)
    (hdropped : ∀ x ∈ dropped, t.apply x = none) (kept : List α) :
    codec.transformFrom t c kept = codec.transformFrom t d kept := by
  induction h with
  | here c => rfl
  | next hnext _ ih =>
    obtain ⟨hx, hxs⟩ := List.forall_mem_cons.1 hdropped
    rw [transformFrom_dropped hnext hx, ih hxs]

/-! ### Everything behind a kept element -/

/-- Along the list, whatever stands behind an element that is kept is kept as it is, and so is the
element. -/
def ElementTransformer.Monotone (t : ElementTransformer α) (xs : List α) : Prop :=
  ∀ before x behind, xs = before ++ x :: behind → (t.apply x).isSome →
    ∀ y ∈ x :: behind, t.apply y = some y

/-- Keeping what a monotone transformer keeps is dropping what stands before it. -/
theorem filterMap_of_monotone {xs : List α} (h : t.Monotone xs) :
    xs.filterMap t.apply = xs.dropWhile fun x => (t.apply x).isNone := by
  induction xs with
  | nil => rfl
  | cons x xs ih =>
    cases hx : t.apply x with
    | none =>
      have hxs : t.Monotone xs := fun before z behind hsplit =>
        h (x :: before) z behind (by rw [hsplit, List.cons_append])
      rw [List.filterMap_cons_none hx, List.dropWhile_cons_of_pos (by simp [hx]), ih hxs]
    | some y =>
      have hall : ∀ z ∈ x :: xs, t.apply z = some z := h [] x xs rfl (by simp [hx])
      rw [List.dropWhile_cons_of_neg (by simp [hx]), List.filterMap_congr hall,
        List.filterMap_some]

/-! ### Whole lists -/

/-- How a transformer that stops at the first element it keeps comes out on some bytes. -/
inductive EarlyExit (codec : Codec α) (t : ElementTransformer α) (bs : Bytes) :
    Except StateError (Option Bytes) → Prop where
  /-- It keeps an element: the bytes from there on. -/
  | kept {dropped : List α} {c c' : Cursor} {x y : α}
      (hreads : codec.Reads (Cursor.ofBytes bs) dropped c)
      (hdropped : ∀ z ∈ dropped, t.apply z = none)
      (hnext : decodeNext codec c = .ok (some (x, c'))) (hkept : t.apply x = some y) :
      EarlyExit codec t bs (.ok (some (bs.drop c.position)))
  /-- It drops every element: nothing is left. -/
  | ended {dropped : List α} {c : Cursor} (hreads : codec.Reads (Cursor.ofBytes bs) dropped c)
      (hdropped : ∀ z ∈ dropped, t.apply z = none) (hend : c.rest = []) :
      EarlyExit codec t bs (.ok none)
  /-- Behind dropped elements there is none that can be read. -/
  | failed {dropped : List α} {c : Cursor} {e : StateError}
      (hreads : codec.Reads (Cursor.ofBytes bs) dropped c)
      (hdropped : ∀ z ∈ dropped, t.apply z = none) (hnext : decodeNext codec c = .error e) :
      EarlyExit codec t bs (.error e)

/-- There is such an outcome wherever reading ends. -/
theorem Codec.Ends.exists_earlyExit {bs : Bytes} (h : codec.Ends (Cursor.ofBytes bs))
    (t : ElementTransformer α) : ∃ r, EarlyExit codec t bs r := by
  obtain ⟨dropped, c, hreads, hdropped, hcases⟩ := h.exists_undecided t
  rcases hcases with hend | ⟨e, hnext⟩ | ⟨x, y, c', hnext, hkept⟩
  · exact ⟨_, .ended hreads hdropped hend⟩
  · exact ⟨_, .failed hreads hdropped hnext⟩
  · exact ⟨_, .kept hreads hdropped hnext hkept⟩

namespace Codec.PositionFree

variable (hfree : codec.PositionFree) (hstop : t.strategy = .stopOnFirstIncluded) {bs : Bytes}
  {r : Except StateError (Option Bytes)}
include hfree hstop

theorem transformList_of_earlyExit (h : EarlyExit codec t bs r) :
    transformList codec t (some bs) = r := by
  refine Option.await_eq ?_
  cases h with
  | kept hreads hdropped hnext hkept =>
    -- the cursor behind the element is still one of the stored bytes
    have hbuffer := hfree.buffer_of_reads (.trans hreads (.next hnext (.here _)))
    rw [transformFrom_of_reads hreads hdropped, transformFrom_stopped hnext hkept hstop, hbuffer]
    rfl
  | ended hreads hdropped hend =>
    exact (transformFrom_of_reads hreads hdropped []).trans (transformFrom_end hend [])
  | failed hreads hdropped hnext =>
    exact (transformFrom_of_reads hreads hdropped []).trans (transformFrom_of_next_error hnext [])

theorem transformList_eq_iff : transformList codec t (some bs) = r ↔ EarlyExit codec t bs r := by
  refine ⟨fun h => ?_, hfree.transformList_of_earlyExit hstop⟩
  -- the transformer comes out in one way only
  obtain ⟨r', hr'⟩ := (hfree.forward.ends (Cursor.ofBytes bs)).exists_earlyExit t
  obtain rfl : r' = r := (hfree.transformList_of_earlyExit hstop hr').symm.trans h
  exact hr'

/-- Where a transformer stops at the first element that it keeps, it returns the bytes from there
on; it returns nothing if a list is read to its end without such an element, and an error if a step
before such an element fails. A written list along which the transformer is monotone is transformed
as if every element were. -/
theorem transformList_of_stop (hc : codec.Conforming) (bs : Bytes) :
    (∀ v, transformList codec t (some bs) = .ok (some v) ↔
      ∃ dropped c x y c', codec.Reads (Cursor.ofBytes bs) dropped c ∧
        (∀ z ∈ dropped, t.apply z = none) ∧ decodeNext codec c = .ok (some (x, c')) ∧
        t.apply x = some y ∧ v = bs.drop c.position) ∧
    (transformList codec t (some bs) = .ok none ↔
      ∃ xs, decodeList codec (some bs) = .ok xs ∧ ∀ x ∈ xs, t.apply x = none) ∧
    (∀ e, transformList codec t (some bs) = .error e ↔
      ∃ dropped c, codec.Reads (Cursor.ofBytes bs) dropped c ∧
        (∀ z ∈ dropped, t.apply z = none) ∧ decodeNext codec c = .error e) ∧
    ∀ xs, encodeList codec xs = .ok bs → t.Monotone xs →
      transformList codec t (some bs)
        = transformList codec { t with strategy := .transformAll } (some bs) := by
  refine ⟨fun v => ?_, ?_, fun e => ?_, fun xs hwritten hmono => ?_⟩
  · rw [hfree.transformList_eq_iff hstop]
    constructor
    · -- of the three ways to come out, this is the only one that keeps an element
      rintro (⟨hreads, hdropped, hnext, hkept⟩)
      exact ⟨_, _, _, _, _, hreads, hdropped, hnext, hkept, rfl⟩
    · rintro ⟨dropped, c, x, y, c', hreads, hdropped, hnext, hkept, rfl⟩
      exact .kept hreads hdropped hnext hkept
  · rw [hfree.transformList_eq_iff hstop]
    constructor
    · -- a list is read to its end if no element is kept before
      rintro (_ | ⟨hreads, hdropped, hend⟩)
      exact ⟨_, decodeList_eq (decodeFrom_eq_ok_iff.2 ⟨_, hreads, hend⟩), hdropped⟩
    · rintro ⟨xs, hxs, hdropped⟩
      obtain ⟨c, hreads, hend⟩ := decodeFrom_eq_ok_iff.1 (hfree.forward.decodeList_eq_iff.1 hxs)
      exact .ended hreads hdropped hend
  · rw [hfree.transformList_eq_iff hstop]
    constructor
    · rintro (_ | _ | ⟨hreads, hdropped, hnext⟩)
      exact ⟨_, _, hreads, hdropped, hnext⟩
    · rintro ⟨dropped, c, hreads, hdropped, hnext⟩
      exact .failed hreads hdropped hnext
  · -- both strategies are known on a written list, and differ in what they keep
    rw [hc.transformList_encodeList_of_stop hstop hwritten,
      hc.transformList_encodeList (t := { t with strategy := .transformAll }) rfl hwritten,
      filterMap_of_monotone hmono]

end Codec.PositionFree

/-- Three byte strings, of which the one that is a delimiter goes. -/
theorem transformList_of_stop_behind_delimiter :
    let t : ElementTransformer Bytes :=
      ⟨fun x => if x = [delimiter] then none else some x, .stopOnFirstIncluded⟩
    let front : Bytes := [1, 0, 0, 0, delimiter, delimiter]
    let behind : Bytes := [2, 0, 0, 0, 1, delimiter, delimiter, 0, 0, 0, 0]
    Codec.bytes.PositionFree ∧ Codec.bytes.Conforming ∧ t.strategy = .stopOnFirstIncluded ∧
      t.Monotone [[delimiter], [1, delimiter], []] ∧
      transformList Codec.bytes t (some (front ++ behind)) = .ok (some behind) ∧
      transformList Codec.bytes { t with strategy := .transformAll } (some (front ++ behind))
        = .ok (some behind) := by
  intro t front behind
  have hfree := Codec.positionFree_bytes
  have hc := Codec.conforming_bytes
  obtain ⟨hkept, -, -, hall⟩ := hfree.transformList_of_stop (t := t) rfl hc (front ++ behind)
  have hmono : t.Monotone [[delimiter], [1, delimiter], []] := by
    rintro (_ | ⟨b, before⟩) x rest hsplit hx y hy
    · obtain ⟨rfl, -⟩ := List.cons.inj hsplit
      cases hx
    · have hmem : y ∈ [[1, delimiter], []] := by
        rw [(List.cons.inj hsplit).2]
        exact List.mem_append_right before hy
      simp only [List.mem_cons, List.not_mem_nil, or_false] at hmem
      obtain rfl | rfl := hmem <;> rfl
  let second := (Cursor.ofBytes (front ++ behind)).skip 6
  let third := (Cursor.ofBytes (front ++ behind)).skip 13
  have hfirst : decodeNext Codec.bytes (Cursor.ofBytes (front ++ behind))
      = .ok (some ([delimiter], second)) := by cbv
  have hsecond : decodeNext Codec.bytes second = .ok (some ([1, delimiter], third)) := by cbv
  have hdropped : ∀ z ∈ [[delimiter]], t.apply z = none := by
    intro z hz
    obtain rfl := List.mem_singleton.1 hz
    rfl
  have hrun : transformList Codec.bytes t (some (front ++ behind)) = .ok (some behind) :=
    (hkept behind).2 ⟨[[delimiter]], second, [1, delimiter], [1, delimiter], third,
      .next hfirst (.here second), hdropped, hsecond, rfl, rfl⟩
  exact ⟨hfree, hc, rfl, hmono, hrun, (hall _ rfl hmono).symm.trans hrun⟩

end AppendLists
