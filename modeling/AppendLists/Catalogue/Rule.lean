import AppendLists.Catalogue.Item
import AppendLists.Expiry

namespace AppendLists

/-!
# The element rules of the catalogue

Decisions about single items, for filters described at run time. A rule for numbers leaves texts
alone and the other way round; on a stamped item it looks at the stamped value.

* `Item.integer?`, `Item.withInteger?`, `Item.text?`, `Item.withText?`: the number or text of an
  item, and the item of its type with another one;
* `Rule`, `Rule.apply`: the decisions;
* `TransformSpec`, `TransformSpec.transformer`: a transformer described at run time.
-/

namespace Item

/-- The number that an item is. -/
def integer? : Item → Option Int
  | .uint64 n => some n.toNat
  | .int64 n => some n.toInt
  | .packed (.uint8 n) => some n.toNat
  | .packed (.uint32 n) => some n.toNat
  | .packed (.int32 n) => some n.toInt
  | .packed (.uint64 n) => some n.toNat
  | .packed (.int64 n) => some n.toInt
  | _ => none

/-- `make i` if `i` lies from `low` to `high`. -/
def within {α : Type} (low high i : Int) (make : Int → α) : Option α :=
  if low ≤ i ∧ i ≤ high then some (make i) else none

/-- The item of the same type with the number `i`, if that type holds it. -/
def withInteger? (item : Item) (i : Int) : Option Item :=
  match item with
  | .uint64 _ => within 0 0xFFFFFFFFFFFFFFFF i fun i => .uint64 (UInt64.ofNat i.toNat)
  | .int64 _ => within (-0x8000000000000000) 0x7FFFFFFFFFFFFFFF i fun i => .int64 (Int64.ofInt i)
  | .packed (.uint8 _) => within 0 0xFF i fun i => .packed (.uint8 (UInt8.ofNat i.toNat))
  | .packed (.uint32 _) =>
    within 0 0xFFFFFFFF i fun i => .packed (.uint32 (UInt32.ofNat i.toNat))
  | .packed (.int32 _) =>
    within (-0x80000000) 0x7FFFFFFF i fun i => .packed (.int32 (Int32.ofInt i))
  | .packed (.uint64 _) =>
    within 0 0xFFFFFFFFFFFFFFFF i fun i => .packed (.uint64 (UInt64.ofNat i.toNat))
  | .packed (.int64 _) =>
    within (-0x8000000000000000) 0x7FFFFFFFFFFFFFFF i fun i => .packed (.int64 (Int64.ofInt i))
  | _ => none

/-- The text that an item is. -/
def text? : Item → Option String
  | .text s => some s
  | .packed (.text s) => some s
  | _ => none

/-- The item of the same type with the text `s`, if it is a text. -/
def withText? (item : Item) (s : String) : Option Item :=
  match item with
  | .text _ => some (.text s)
  | .packed (.text _) => some (.packed (.text s))
  | _ => none

end Item

/-- Whether `part` occurs in `whole` without gaps. -/
def occursIn (part : List Char) : List Char → Bool
  | [] => part.isEmpty
  | c :: cs => part.isPrefixOf (c :: cs) || occursIn part cs

/-- A decision about single items. -/
inductive Rule where
  /-- Keep everything. -/
  | keep
  /-- Drop everything. -/
  | dropAll
  /-- Keep the odd numbers. -/
  | odd
  /-- Keep the numbers from `n` on. -/
  | atLeast (n : Int)
  /-- Keep the numbers other than `n`. -/
  | differs (n : Int)
  /-- Keep the numbers from `n` on, one greater. -/
  | atLeastNext (n : Int)
  /-- Multiply the numbers by `n`. -/
  | scale (n : Int)
  /-- Keep the texts with some character. -/
  | nonempty
  /-- Keep the texts in which `s` occurs. -/
  | contains (s : String)
  /-- Write `s` behind the texts. -/
  | append (s : String)
deriving DecidableEq

namespace Rule

/-- What becomes of a number; a result that the item's type cannot hold leaves the item as it
is. -/
def onInteger (item : Item) (i : Int) : Rule → Option Item
  | .dropAll => none
  | .odd => if i % 2 = 1 then some item else none
  | .atLeast n => if n ≤ i then some item else none
  | .differs n => if i = n then none else some item
  | .atLeastNext n => if n ≤ i then some ((item.withInteger? (i + 1)).getD item) else none
  | .scale n => some ((item.withInteger? (i * n)).getD item)
  | _ => some item

/-- What becomes of a text. -/
def onText (item : Item) (t : String) : Rule → Option Item
  | .dropAll => none
  | .nonempty => if t.isEmpty then none else some item
  | .contains s => if occursIn s.toList t.toList then some item else none
  | .append s => some ((item.withText? (t ++ s)).getD item)
  | _ => some item

/-- What becomes of an item that is not stamped. -/
def applyPlain (rule : Rule) (item : Item) : Option Item :=
  match item.integer?, item.text? with
  | some i, _ => rule.onInteger item i
  | none, some t => rule.onText item t
  | none, none => if rule = .dropAll then none else some item

/-- What becomes of an item; of a stamped one, by its value. -/
def apply (rule : Rule) : Item → Option Item
  | .stamped value lastAccess => (rule.applyPlain value).map (.stamped · lastAccess)
  | item => rule.applyPlain item

end Rule

/-- A description of a transformer of items. -/
inductive TransformSpec where
  /-- A rule, with the strategy that carries it over to lists. -/
  | rule (r : Rule) (strategy : TransformStrategy)
  /-- Drop the stamped items that outlived `ttl`. -/
  | expiry (ttl : Int64)
deriving DecidableEq

/-- The transformer that is described, at the time `now`. Expiry keeps items without a stamp. -/
def TransformSpec.transformer (now : Int64) : TransformSpec → ElementTransformer Item
  | .rule r strategy => ⟨r.apply, strategy⟩
  | .expiry ttl =>
    let filter : ElementTransformer (Stamped Item) := expiryFilter ttl now
    { apply := fun
        | .stamped value lastAccess =>
          (filter.apply ⟨value, lastAccess⟩).map fun s => .stamped s.value s.lastAccess
        | item => some item
      strategy := filter.strategy }

end AppendLists
