import AppendLists.Bytes

namespace AppendLists

/-!
# Ordered tables

A finite table from keys to values, kept as a list of pairs with strictly increasing keys. The
order is part of the type, so a table lists its bindings in key order and holds no key twice.

* `Table.find?`, `Table.insert`, `Table.erase`: look up, bind and unbind a key;
* `Table.pairs`, `Table.keys`, `Table.values`: the bindings in key order.

`find?_insert` and `find?_erase` say what each operation does to the look-up view.
-/

/-- What a table needs of its keys: a strict order in which two keys that do not precede each
other are equal. -/
class KeyOrder (κ : Type) extends LT κ where
  /-- No key precedes itself. -/
  irrefl : ∀ a : κ, ¬ a < a
  /-- The order is transitive. -/
  trans : ∀ {a b c : κ}, a < b → b < c → a < c
  /-- Keys neither of which precedes the other are equal. -/
  eq_of_not_lt : ∀ {a b : κ}, ¬ a < b → ¬ b < a → a = b

/-- Byte strings in lexicographic order, a proper beginning first. -/
instance : KeyOrder Bytes where
  irrefl := List.lt_irrefl
  trans := List.lt_trans
  eq_of_not_lt h h' := List.le_antisymm h' h

/-- Texts by code point, which is also the order of their encodings. -/
instance : KeyOrder String where
  irrefl := String.lt_irrefl
  trans := String.lt_trans
  eq_of_not_lt h h' := String.le_antisymm h' h

variable {κ α : Type} [KeyOrder κ]

/-- A finite table with its bindings in key order. -/
structure Table (κ α : Type) [KeyOrder κ] where
  /-- The bindings, by strictly increasing key. -/
  pairs : List (κ × α)
  /-- Each key precedes every later one. -/
  ordered : pairs.Pairwise (fun p q => p.1 < q.1)

namespace Table

/-- Tables with the same pairs are the same. -/
theorem ext_pairs {t u : Table κ α} (h : t.pairs = u.pairs) : t = u := by
  cases t; cases u; cases h; rfl

instance [DecidableEq κ] [DecidableEq α] : DecidableEq (Table κ α) := fun t u =>
  decidable_of_iff (t.pairs = u.pairs) ⟨ext_pairs, fun h => h ▸ rfl⟩

/-- The table without bindings. -/
def empty : Table κ α := ⟨[], List.Pairwise.nil⟩

instance : Inhabited (Table κ α) := ⟨empty⟩

/-- The keys in order. -/
def keys (t : Table κ α) : List κ := t.pairs.map (·.1)

/-- The values in the order of their keys. -/
def values (t : Table κ α) : List α := t.pairs.map (·.2)

/-- The number of bindings. -/
def size (t : Table κ α) : Nat := t.pairs.length

/-! ### Look-up -/

/-- The first value bound to `k` in a list of pairs. -/
def lookup [DecidableEq κ] (k : κ) : List (κ × α) → Option α
  | [] => none
  | (k', v) :: rest => if k = k' then some v else lookup k rest

/-- The value bound to a key. -/
def find? [DecidableEq κ] (t : Table κ α) (k : κ) : Option α := lookup k t.pairs

/-- Whether a key is bound. -/
def contains [DecidableEq κ] (t : Table κ α) (k : κ) : Bool := (t.find? k).isSome

/-! ### Binding a key -/

variable [DecidableEq κ] [DecidableLT κ]

/-- Put a binding at its place in an ordered list, replacing an earlier one of its key. -/
def place (k : κ) (v : α) : List (κ × α) → List (κ × α)
  | [] => [(k, v)]
  | (k', v') :: rest =>
    if k = k' then (k, v) :: rest
    else if k < k' then (k, v) :: (k', v') :: rest
    else (k', v') :: place k v rest

omit [DecidableEq κ] [DecidableLT κ] in
theorem lt_of_ne_of_not_lt {a b : κ} (hne : a ≠ b) (h : ¬ a < b) [DecidableLT κ] : b < a :=
  if h' : b < a then h' else absurd (KeyOrder.eq_of_not_lt h h') hne

/-- What is in a list behind a placement was there or was placed. -/
theorem mem_place {k : κ} {v : α} {l : List (κ × α)} {p : κ × α} (h : p ∈ place k v l) :
    p = (k, v) ∨ p ∈ l := by
  induction l with
  | nil => exact .inl (by simpa [place] using h)
  | cons q rest ih =>
    obtain ⟨k', v'⟩ := q
    unfold place at h
    split at h
    · rcases List.mem_cons.1 h with h | h
      · exact .inl h
      · exact .inr (List.mem_cons_of_mem _ h)
    · split at h
      · exact List.mem_cons.1 h
      · rcases List.mem_cons.1 h with h | h
        · exact .inr (h ▸ List.mem_cons_self)
        · exact (ih h).imp_right (List.mem_cons_of_mem _)

/-- A placement keeps the order of keys. -/
theorem pairwise_place (k : κ) (v : α) {l : List (κ × α)}
    (h : l.Pairwise (fun p q => p.1 < q.1)) : (place k v l).Pairwise (fun p q => p.1 < q.1) := by
  induction l with
  | nil => simp [place]
  | cons q rest ih =>
    obtain ⟨k', v'⟩ := q
    obtain ⟨hq, hrest⟩ := List.pairwise_cons.1 h
    unfold place
    split
    · case isTrue heq => exact List.pairwise_cons.2 ⟨heq ▸ hq, hrest⟩
    · case isFalse hne =>
      split
      · case isTrue hlt =>
        refine List.pairwise_cons.2 ⟨fun p hp => ?_, h⟩
        rcases List.mem_cons.1 hp with rfl | hp
        · exact hlt
        · exact KeyOrder.trans hlt (hq p hp)
      · case isFalse hnlt =>
        refine List.pairwise_cons.2 ⟨fun p hp => ?_, ih hrest⟩
        rcases mem_place hp with rfl | hp
        · exact lt_of_ne_of_not_lt hne hnlt
        · exact hq p hp

/-- Bind `k` to `v`, replacing an earlier binding of `k`. -/
def insert (t : Table κ α) (k : κ) (v : α) : Table κ α :=
  ⟨place k v t.pairs, pairwise_place k v t.ordered⟩

/-- Remove the binding of `k`, if there is one. -/
def erase (t : Table κ α) (k : κ) : Table κ α :=
  ⟨t.pairs.filter (fun p => p.1 ≠ k), t.ordered.filter _⟩

/-- The table of a list of pairs; of several pairs with one key the last counts. -/
def ofList (l : List (κ × α)) : Table κ α :=
  l.foldl (fun t p => t.insert p.1 p.2) empty

/-! ### The look-up view of each operation -/

omit [DecidableLT κ] in
@[simp] theorem find?_empty (k : κ) : (empty : Table κ α).find? k = none := rfl

/-- The placed value is found under its key, and the others where they were. -/
theorem lookup_place (k k' : κ) (v : α) (l : List (κ × α)) :
    lookup k' (place k v l) = if k' = k then some v else lookup k' l := by
  induction l with
  | nil => simp [place, lookup]
  | cons q rest ih =>
    obtain ⟨k₀, v₀⟩ := q
    unfold place
    split
    · case isTrue heq => subst heq; by_cases hk : k' = k <;> simp [lookup, hk]
    · case isFalse hne =>
      split
      · simp [lookup]
      · simp only [lookup, ih]
        by_cases hk : k' = k
        · subst hk; simp [hne]
        · simp [hk]

/-- An insertion changes what is found under its key and no other. -/
@[simp] theorem find?_insert (t : Table κ α) (k k' : κ) (v : α) :
    (t.insert k v).find? k' = if k' = k then some v else t.find? k' :=
  lookup_place k k' v t.pairs

omit [KeyOrder κ] [DecidableLT κ] in
/-- Without a key its value is not found, and the others are. -/
theorem lookup_filter_ne (k k' : κ) (l : List (κ × α)) :
    lookup k' (l.filter (fun p => p.1 ≠ k)) = if k' = k then none else lookup k' l := by
  induction l with
  | nil => simp [lookup]
  | cons q rest ih =>
    obtain ⟨k₀, v₀⟩ := q
    by_cases h : k₀ = k
    · subst h
      rw [List.filter_cons_of_neg (by simp), ih]
      by_cases hk : k' = k₀ <;> simp [lookup, hk]
    · rw [List.filter_cons_of_pos (by simpa using h)]
      simp only [lookup, ih]
      by_cases hk : k' = k
      · subst hk
        simp [Ne.symm h]
      · simp [hk]

omit [DecidableLT κ] in
/-- A removal changes what is found under its key and no other. -/
@[simp] theorem find?_erase (t : Table κ α) (k k' : κ) :
    (t.erase k).find? k' = if k' = k then none else t.find? k' :=
  lookup_filter_ne k k' t.pairs

end Table

end AppendLists
