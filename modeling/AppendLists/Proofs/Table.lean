import AppendLists.Table

namespace AppendLists

/-!
# Tables as maps

A table is determined by its look-ups: the order of its keys leaves no freedom in how its bindings
are listed. So two tables are compared key by key, and whatever is computed from a table in key
order is computed from its look-ups.

* `Table.ext_find?`: equal look-ups make equal tables;
* `Table.mem_pairs_iff`: the bindings listed are the bindings found;
* `Table.filterMap`: the table of the values that a function keeps, `find?_filterMap`;
* `Table.keys_eq_of_isSome_eq`: tables that bind the same keys list them alike;
* `Table.mem_of_find?_ofList`, `Table.ofList_pairs`: the bindings of the table of a list;
* `Table.sumBy`: a measure of the values, added up, `sumBy_insert`, `size_insert_le`.
-/

namespace Table

variable {κ α β : Type} [KeyOrder κ] [DecidableEq κ]

/-! ### Look-ups in ordered lists -/

/-- A key that precedes every key of a list is not found in it. -/
theorem lookup_eq_none_of_lt {k : κ} {l : List (κ × α)} (h : ∀ p ∈ l, k < p.1) :
    lookup k l = none := by
  induction l with
  | nil => rfl
  | cons p l ih =>
    have hne : k ≠ p.1 := by
      intro heq
      exact KeyOrder.irrefl k (by simpa [← heq] using h p (by simp))
    simp only [lookup, if_neg hne]
    exact ih (fun q hq => h q (by simp [hq]))

omit [KeyOrder κ] in
/-- What is found is listed. -/
theorem mem_of_lookup {k : κ} {v : α} {l : List (κ × α)} (h : lookup k l = some v) :
    (k, v) ∈ l := by
  induction l with
  | nil => simp [lookup] at h
  | cons p l ih =>
    obtain ⟨k', v'⟩ := p
    by_cases hk : k = k'
    · simp only [lookup, if_pos hk, Option.some.injEq] at h
      simp [hk, h]
    · simp only [lookup, if_neg hk] at h
      exact List.mem_cons_of_mem _ (ih h)

/-- In an ordered list, what is listed is found. -/
theorem lookup_of_mem {k : κ} {v : α} {l : List (κ × α)}
    (hl : l.Pairwise (fun p q => p.1 < q.1)) (h : (k, v) ∈ l) : lookup k l = some v := by
  induction l with
  | nil => simp at h
  | cons p l ih =>
    obtain ⟨hp, hl⟩ := List.pairwise_cons.1 hl
    rcases List.mem_cons.1 h with rfl | h
    · simp [lookup]
    · have hne : k ≠ p.1 := by
        intro heq
        exact KeyOrder.irrefl k (by simpa [← heq] using hp _ h)
      simp only [lookup, if_neg hne]
      exact ih hl h

/-- Ordered lists with the same look-ups are the same. -/
theorem eq_of_lookup_eq {l m : List (κ × α)} (hl : l.Pairwise (fun p q => p.1 < q.1))
    (hm : m.Pairwise (fun p q => p.1 < q.1)) (h : ∀ k, lookup k l = lookup k m) : l = m := by
  induction l generalizing m with
  | nil =>
    cases m with
    | nil => rfl
    | cons q m => simpa [lookup] using h q.1
  | cons p l ih =>
    obtain ⟨k, v⟩ := p
    cases m with
    | nil => simpa [lookup] using h k
    | cons q m =>
      obtain ⟨k', v'⟩ := q
      obtain ⟨hp, hl⟩ := List.pairwise_cons.1 hl
      obtain ⟨hq, hm'⟩ := List.pairwise_cons.1 hm
      -- a first key that precedes the other one would be missing on the other side
      have hk : k = k' := by
        apply KeyOrder.eq_of_not_lt
        · intro hlt
          have hnone : lookup k ((k', v') :: m) = none :=
            lookup_eq_none_of_lt (List.forall_mem_cons.2
              ⟨hlt, fun r hr => KeyOrder.trans hlt (hq r hr)⟩)
          have hsome := h k
          rw [hnone] at hsome
          simp [lookup] at hsome
        · intro hlt
          have hnone : lookup k' ((k, v) :: l) = none :=
            lookup_eq_none_of_lt (List.forall_mem_cons.2
              ⟨hlt, fun r hr => KeyOrder.trans hlt (hp r hr)⟩)
          have hsome := h k'
          rw [hnone] at hsome
          simp [lookup] at hsome
      subst hk
      have hv : v = v' := by simpa [lookup] using h k
      have htail : l = m := by
        apply ih hl hm'
        intro x
        by_cases hx : x = k
        · rw [hx, lookup_eq_none_of_lt hp, lookup_eq_none_of_lt hq]
        · simpa [lookup, hx] using h x
      rw [hv, htail]

/-! ### Tables by their look-ups -/

/-- Tables with the same look-ups are the same. -/
theorem ext_find? {t u : Table κ α} (h : ∀ k, t.find? k = u.find? k) : t = u :=
  ext_pairs (eq_of_lookup_eq t.ordered u.ordered h)

/-- Binding a key to what it is bound to already changes nothing. -/
theorem insert_of_found [DecidableLT κ] {t : Table κ α} {k : κ} {v : α} (h : t.find? k = some v) :
    t.insert k v = t := by
  apply ext_find?
  intro k'
  rw [find?_insert]
  split
  · case isTrue hk => rw [hk, h]
  · rfl

/-- A pair is in the table if its key is found with its value. -/
theorem mem_pairs_iff {t : Table κ α} {k : κ} {v : α} :
    (k, v) ∈ t.pairs ↔ t.find? k = some v :=
  ⟨lookup_of_mem t.ordered, mem_of_lookup⟩

omit [DecidableEq κ] in
/-- No key is listed twice. -/
theorem nodup_keys (t : Table κ α) : t.keys.Nodup := by
  unfold keys
  rw [List.Nodup, List.pairwise_map]
  refine t.ordered.imp ?_
  intro p q hlt heq
  exact KeyOrder.irrefl p.1 (by simpa [heq] using hlt)

/-- A key is in the table if it is found. -/
theorem mem_keys_iff {t : Table κ α} {k : κ} : k ∈ t.keys ↔ (t.find? k).isSome := by
  constructor
  · intro h
    obtain ⟨⟨k', v⟩, hp, rfl⟩ := List.mem_map.1 h
    simp [mem_pairs_iff.1 hp]
  · intro h
    obtain ⟨v, hv⟩ := Option.isSome_iff_exists.1 h
    exact List.mem_map.2 ⟨(k, v), mem_pairs_iff.2 hv, rfl⟩

/-! ### Values kept by a function -/

/-- Keep the bindings whose value has an image, bound to the image. -/
def filterMap (f : α → Option β) (t : Table κ α) : Table κ β where
  pairs := t.pairs.filterMap fun (k, v) => (f v).map fun w => (k, w)
  ordered := by
    rw [List.pairwise_filterMap]
    refine t.ordered.imp ?_
    intro p q hlt p' hp' q' hq'
    obtain ⟨v, _, rfl⟩ := Option.map_eq_some_iff.1 hp'
    obtain ⟨w, _, rfl⟩ := Option.map_eq_some_iff.1 hq'
    exact hlt

omit [DecidableEq κ] in
/-- What is kept of a table are the values that something is made of. -/
theorem mem_pairs_filterMap {f : α → Option β} {t : Table κ α} {k : κ} {w : β} :
    (k, w) ∈ (t.filterMap f).pairs ↔ ∃ v, (k, v) ∈ t.pairs ∧ f v = some w := by
  constructor
  · intro h
    obtain ⟨⟨k', v⟩, hp, hw⟩ := List.mem_filterMap.1 h
    obtain ⟨w', hf, heq⟩ := Option.map_eq_some_iff.1 hw
    obtain ⟨rfl, rfl⟩ := Prod.mk.inj heq
    exact ⟨v, hp, hf⟩
  · rintro ⟨v, hp, hf⟩
    exact List.mem_filterMap.2 ⟨(k, v), hp, by simp [hf]⟩

@[simp] theorem find?_filterMap (f : α → Option β) (t : Table κ α) (k : κ) :
    (t.filterMap f).find? k = (t.find? k).bind f := by
  apply Option.ext
  intro w
  rw [← mem_pairs_iff, mem_pairs_filterMap, Option.bind_eq_some_iff]
  simp only [mem_pairs_iff]

/-- Tables that bind the same keys list the same keys. -/
theorem keys_eq_of_isSome_eq {t : Table κ α} {u : Table κ β}
    (h : ∀ k, (t.find? k).isSome = (u.find? k).isSome) : t.keys = u.keys := by
  -- without their values the two tables are one
  have hkeys : ∀ {γ : Type} (w : Table κ γ), (w.filterMap fun _ => some ()).keys = w.keys := by
    intro γ w
    simp [keys, filterMap]
  have hsame : (t.filterMap fun _ => some ()) = u.filterMap fun _ => some () := by
    apply ext_find?
    intro k
    have hk := h k
    cases ht : t.find? k <;> cases hu : u.find? k <;> simp_all
  rw [← hkeys t, ← hkeys u, hsame]

/-! ### Tables of lists -/

/-- What the table of a list binds is in the list. -/
theorem mem_of_find?_ofList [DecidableLT κ] {l : List (κ × α)} {k : κ} {v : α}
    (h : (ofList l).find? k = some v) : (k, v) ∈ l := by
  have hfold : ∀ (t : Table κ α),
      (l.foldl (fun t p => t.insert p.1 p.2) t).find? k = some v →
        (k, v) ∈ l ∨ t.find? k = some v := by
    -- a pair of the list is bound on the way, or was bound before
    clear h
    induction l with
    | nil => exact fun t h => .inr h
    | cons p l ih =>
      intro t h
      rcases ih (t.insert p.1 p.2) h with hmem | hfind
      · exact .inl (List.mem_cons_of_mem _ hmem)
      · rw [find?_insert] at hfind
        split at hfind
        · case isTrue hk =>
          obtain rfl := Option.some.inj hfind
          exact .inl (hk ▸ List.mem_cons_self)
        · exact .inr hfind
  rcases hfold empty h with hmem | hfind
  · exact hmem
  · cases hfind

/-- A binding whose key comes after every key of a list goes to its end. -/
theorem place_of_lt [DecidableLT κ] {k : κ} {v : α} {l : List (κ × α)} (h : ∀ p ∈ l, p.1 < k) :
    place k v l = l ++ [(k, v)] := by
  induction l with
  | nil => rfl
  | cons p l ih =>
    obtain ⟨hp, hl⟩ := List.forall_mem_cons.1 h
    have hne : k ≠ p.1 := fun heq => KeyOrder.irrefl k (by simpa [← heq] using hp)
    have hnlt : ¬ k < p.1 := fun hlt => KeyOrder.irrefl k (KeyOrder.trans hlt hp)
    rw [place, if_neg hne, if_neg hnlt, ih hl, List.cons_append]

/-- Bindings in key order go to the end one by one. -/
theorem pairs_foldl_insert [DecidableLT κ] {l : List (κ × α)} {t : Table κ α}
    (h : (t.pairs ++ l).Pairwise fun p q => p.1 < q.1) :
    (l.foldl (fun t p => t.insert p.1 p.2) t).pairs = t.pairs ++ l := by
  induction l generalizing t with
  | nil => simp
  | cons p l ih =>
    have hlast : ∀ q ∈ t.pairs, q.1 < p.1 := fun q hq =>
      (List.pairwise_append.1 h).2.2 q hq p List.mem_cons_self
    have hinsert : (t.insert p.1 p.2).pairs = t.pairs ++ [p] := place_of_lt hlast
    have hnext : ((t.insert p.1 p.2).pairs ++ l).Pairwise fun p q => p.1 < q.1 := by
      simpa [hinsert] using h
    rw [List.foldl_cons, ih hnext, hinsert, List.append_assoc, List.singleton_append]

/-- The table of the bindings of a table is that table. -/
theorem ofList_pairs [DecidableLT κ] (t : Table κ α) : ofList t.pairs = t :=
  ext_pairs (pairs_foldl_insert (t := empty) t.ordered)

/-! ### Measures -/

/-- A measure of the values of a list of pairs, added up. -/
def total (f : α → Nat) : List (κ × α) → Nat
  | [] => 0
  | p :: l => f p.2 + total f l

/-- A measure of the values, added up. -/
def sumBy (f : α → Nat) (t : Table κ α) : Nat := total f t.pairs

variable [DecidableLT κ]

/-- Placing a value adds what it counts for, less what the one before did. -/
theorem total_place (f : α → Nat) (k : κ) (v : α) {l : List (κ × α)}
    (hl : l.Pairwise (fun p q => p.1 < q.1)) :
    total f (place k v l) + ((lookup k l).map f).getD 0 = total f l + f v := by
  induction l with
  | nil => simp [place, lookup, total]
  | cons p l ih =>
    obtain ⟨k', v'⟩ := p
    obtain ⟨hp, hl⟩ := List.pairwise_cons.1 hl
    by_cases heq : k = k'
    · -- the value is replaced in its place
      simp only [place, lookup, if_pos heq, total, Option.map_some, Option.getD_some]
      omega
    · by_cases hlt : k < k'
      · -- the place of the key is here, so it is not bound further on
        have hnone : lookup k l = none :=
          lookup_eq_none_of_lt fun q hq => KeyOrder.trans hlt (hp q hq)
        simp only [place, lookup, if_neg heq, if_pos hlt, hnone, total, Option.map_none,
          Option.getD_none]
        omega
      · have ih := ih hl
        simp only [place, lookup, if_neg heq, if_neg hlt, total]
        omega

/-- A bound value replaces the measure of the one it replaces. -/
theorem sumBy_insert (f : α → Nat) (t : Table κ α) (k : κ) (v : α) :
    sumBy f (t.insert k v) + ((t.find? k).map f).getD 0 = sumBy f t + f v :=
  total_place f k v t.ordered

omit [DecidableEq κ] [DecidableLT κ] in
/-- The size counts one for every key. -/
theorem size_eq_sumBy (t : Table κ α) : t.size = sumBy (fun _ => 1) t := by
  have htotal : ∀ l : List (κ × α), l.length = total (fun _ => 1) l := by
    intro l
    induction l with
    | nil => rfl
    | cons p l ih => rw [List.length_cons, total, ih, Nat.add_comm]
  exact htotal t.pairs

/-- An insertion adds one key at most. -/
theorem size_insert_le (t : Table κ α) (k : κ) (v : α) : (t.insert k v).size ≤ t.size + 1 := by
  have h := sumBy_insert (fun _ => 1) t k v
  rw [size_eq_sumBy, size_eq_sumBy]
  omega

/-- None if the key is there. -/
theorem size_insert_of_found {t : Table κ α} {k : κ} {v : α} (h : t.find? k = some v) (v' : α) :
    (t.insert k v').size = t.size := by
  have hsum := sumBy_insert (fun _ => 1) t k v'
  rw [h, Option.map_some, Option.getD_some] at hsum
  rw [size_eq_sumBy, size_eq_sumBy]
  omega

omit [DecidableLT κ] in
/-- A removal adds none. -/
theorem size_erase_le (t : Table κ α) (k : κ) : (t.erase k).size ≤ t.size :=
  List.length_filter_le ..

end Table

end AppendLists
