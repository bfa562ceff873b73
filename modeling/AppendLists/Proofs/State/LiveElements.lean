import AppendLists.Proofs.State.Expiry

namespace AppendLists

/-!
# Live elements of lists in order

A deadline that lies outside the range of times is moved to the nearest end of it, so deadlines that
differ as numbers may be the same as times. That makes no difference for whether they have come, as
long as the time is not the last one there is: a deadline moved up lies behind every earlier time, and
one moved down has come at every time. So an element is expired if its exact deadline has come, and a
list in the order of time loses its expired elements and no other.

* `isExpired_iff`, `isExpired_maxValue`: expiry in exact numbers, and at the last time there is;
* `dropWhile_eq_filter`: when dropping a front is filtering;
* `IsLive`, `unexpiredFrom_eq_live`: what stopping at the first live element leaves of such a list;
* `suffix_of_encodeList_append`: the written form of the last elements of a list;
* `Codec.Conforming.expiry_keeps_live`: what is left of a written list.
-/

variable {α : Type} {codec : Codec α} {ttl now lastAccess : Int64}

/-! ### Exact deadlines -/

/-- Before the last time there is, an element is expired when its exact deadline has come. -/
theorem isExpired_iff (hnow : now < Int64.maxValue) :
    isExpired ttl lastAccess now = true ↔ lastAccess.toInt + ttl.toInt ≤ now.toInt := by
  have hupper : now.toInt < 0x7FFFFFFFFFFFFFFF := Int64.lt_iff_toInt_lt.1 hnow
  have hlower := now.le_toInt
  rw [isExpired, decide_eq_true_iff, Time.saturate]
  omega

/-- At the last time there is, every element is expired. -/
theorem isExpired_maxValue (ttl lastAccess : Int64) :
    isExpired ttl lastAccess Int64.maxValue = true := by
  have hlast : Int64.maxValue.toInt = 0x7FFFFFFFFFFFFFFF := rfl
  rw [isExpired, decide_eq_true_iff, Time.saturate, hlast]
  omega

/-- Whether the exact deadline of an element is still to come. -/
def IsLive (ttl now : Int64) (x : Stamped α) : Bool := now.toInt < x.lastAccess.toInt + ttl.toInt

theorem isExpired_eq_not_isLive (hnow : now < Int64.maxValue) (x : Stamped α) :
    isExpired ttl x.lastAccess now = !IsLive ttl now x := by
  rw [Bool.eq_iff_iff, isExpired_iff hnow]
  simp [IsLive]

/-! ### Lists in order -/

/-- Where an element is to be dropped only together with those before it, dropping from the front
drops all that are to be dropped. -/
theorem dropWhile_eq_filter {β : Type} {drops : β → Bool} {xs : List β}
    (h : xs.Pairwise fun x y => drops y = true → drops x = true) :
    xs.dropWhile drops = xs.filter fun x => !drops x := by
  have hfront : (xs.takeWhile drops).filter (fun x => !drops x) = [] :=
    List.filter_eq_nil_iff.2 fun x hx => by
      simp [List.all_eq_true.1 List.all_takeWhile x hx]
  have hbehind : (xs.dropWhile drops).filter (fun x => !drops x) = xs.dropWhile drops :=
    List.filter_eq_self.2 fun x hx => by simp [forall_mem_dropWhile_iff.2 h x hx]
  calc xs.dropWhile drops
      = (xs.takeWhile drops ++ xs.dropWhile drops).filter fun x => !drops x := by
        rw [List.filter_append, hfront, hbehind, List.nil_append]
    _ = xs.filter fun x => !drops x := by rw [List.takeWhile_append_dropWhile]

/-- What stopping at the first live element leaves of a list in the order of time. -/
theorem unexpiredFrom_eq_live (hnow : now < Int64.maxValue) {xs : List (Stamped α)}
    (horder : xs.Pairwise fun x y => x.lastAccess ≤ y.lastAccess) :
    unexpiredFrom ttl now xs = xs.filter (IsLive ttl now) := by
  rw [unexpiredFrom, dropWhile_eq_filter (horder.imp isExpired_of_le)]
  simp only [isExpired_eq_not_isLive hnow, Bool.not_not]

/-! ### Written lists -/

/-- The written form of the last elements of a list stands at the end of that of the list. -/
theorem suffix_of_encodeList_append (hc : codec.Appending) {front back : List α} {bs out : Bytes}
    (hback : back ≠ []) (hall : encodeList codec (front ++ back) = .ok bs)
    (hout : encodeList codec back = .ok out) : out <:+ bs := by
  by_cases hfront : front = []
  · rw [hfront, List.nil_append, hout] at hall
    obtain rfl : out = bs := Except.ok.inj hall
    exact List.suffix_refl out
  · have hwrites : ∀ x ∈ front, codec.Writes x := fun x hx =>
      hc.encodeList_isOk_iff.1 ⟨bs, hall⟩ x (List.mem_append_left back hx)
    obtain ⟨a, ha⟩ := hc.encodeList_isOk_iff.2 hwrites
    rw [hc.encodeList_append hfront hback ha hout] at hall
    rw [← Except.ok.inj hall]
    exact ⟨a ++ [delimiter], by simp⟩

/-- **Expiry keeps exactly the live elements.** Of a written list in the order of time, at any time but
the last one there is and for any time to live, negative ones included, nothing is left if the exact
deadlines of all elements have come. Otherwise the written form of those whose deadlines are still to
come is left, which stands at the end of the list. No deadline needs to be a time for this. -/
theorem Codec.Conforming.expiry_keeps_live (hc : codec.Conforming) {xs : List (Stamped α)}
    {bs : Bytes} (horder : xs.Pairwise fun x y => x.lastAccess ≤ y.lastAccess)
    (hwritten : encodeList codec.stamped xs = .ok bs) (hnow : now < Int64.maxValue) (ttl : Int64) :
    let live := xs.filter fun x => now.toInt < x.lastAccess.toInt + ttl.toInt
    ((∀ x ∈ xs, x.lastAccess.toInt + ttl.toInt ≤ now.toInt) →
      transformList codec.stamped (expiryFilter ttl now) (some bs) = .ok none) ∧
    ((∃ x ∈ xs, now.toInt < x.lastAccess.toInt + ttl.toInt) →
      ∃ out, encodeList codec.stamped live = .ok out ∧
        transformList codec.stamped (expiryFilter ttl now) (some bs) = .ok (some out) ∧
        out <:+ bs) := by
  intro live
  have hleft : (xs.dropWhile fun x => isExpired ttl x.lastAccess now) = live :=
    unexpiredFrom_eq_live hnow horder
  have hrun := hc.stamped.transformList_encodeList_of_stop (t := expiryFilter ttl now) rfl hwritten
  simp only [isNone_expiryFilter, hleft] at hrun
  constructor
  · intro hexpired
    have hnil : live = [] := List.filter_eq_nil_iff.2 fun x hx => by simpa using hexpired x hx
    rw [hrun, if_pos hnil]
  · rintro ⟨x, hx, hlive⟩
    have hne : live ≠ [] := List.ne_nil_of_mem (List.mem_filter.2 ⟨hx, by simpa using hlive⟩)
    have hwrites : ∀ y ∈ live, codec.stamped.Writes y := fun y hy =>
      hc.stamped.appending.encodeList_isOk_iff.1 ⟨bs, hwritten⟩ y (List.mem_filter.1 hy).1
    obtain ⟨out, hout⟩ := hc.stamped.appending.encodeList_isOk_iff.2 hwrites
    refine ⟨out, hout, by rw [hrun, if_neg hne, hout]; rfl, ?_⟩
    -- what is left is the list behind its expired front
    have hsplit : xs.takeWhile (fun x => isExpired ttl x.lastAccess now) ++ live = xs := by
      rw [← hleft]
      exact List.takeWhile_append_dropWhile
    rw [← hsplit] at hwritten
    exact suffix_of_encodeList_append hc.stamped.appending hne hwritten hout

/-- The first and the last time there is as times of writing: with the greatest time to live only the
first element is expired, and with the least one every element. -/
theorem expiry_at_both_ends :
    let xs : List (Stamped UInt64) := [⟨1, Int64.minValue⟩, ⟨2, 0⟩, ⟨3, Int64.maxValue⟩]
    ∃ bs, encodeList Codec.u64.stamped xs = .ok bs ∧
      transformList Codec.u64.stamped (expiryFilter Int64.maxValue 5) (some bs)
        = .ok (some (bs.drop 17)) ∧
      transformList Codec.u64.stamped (expiryFilter Int64.minValue 5) (some bs) = .ok none := by
  intro xs
  have hc := Codec.conforming_u64
  have horder : xs.Pairwise fun x y => x.lastAccess ≤ y.lastAccess := by decide
  have hnow : (5 : Int64) < Int64.maxValue := by decide
  obtain ⟨-, hkept⟩ := hc.expiry_keeps_live horder rfl hnow Int64.maxValue
  obtain ⟨hgone, -⟩ := hc.expiry_keeps_live horder rfl hnow Int64.minValue
  obtain ⟨out, hout, hrun, -⟩ := hkept ⟨⟨3, Int64.maxValue⟩, by decide, by decide⟩
  refine ⟨_, rfl, ?_, hgone (by decide)⟩
  rw [hrun]
  exact congrArg (Except.ok ∘ some) (Except.ok.inj hout).symm

end AppendLists
