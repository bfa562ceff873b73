import AppendLists.ListFormat.Basic

namespace AppendLists

/-!
# Filtering and rewriting written lists

A transformer decides for each element of a list whether it stays and as what. Applied to a
written list it decodes element by element and either re-encodes the survivors or, once the first
element stays, hands back the rest of the bytes as they are.

* `TransformStrategy`: which of the two;
* `ElementTransformer`: the decision and the strategy;
* `transformList`: a stored value transformed; a list that loses every element becomes absent.
-/

/-- What happens to the elements after the first one that stays. -/
inductive TransformStrategy where
  /-- Every element is transformed, and the survivors are encoded again. -/
  | transformAll
  /-- The bytes from the first element that stays to the end are returned untouched. Fits
  decisions under which everything after a kept element is kept unchanged too. -/
  | stopOnFirstIncluded
deriving DecidableEq

/-- A decision about the elements of a list. -/
structure ElementTransformer (α : Type) where
  /-- What an element becomes; `none` drops it. -/
  apply : α → Option α
  /-- How the decision is carried over to a whole list. -/
  strategy : TransformStrategy

variable {α : Type}

/-- Transform the elements from the cursor on, if reading ends; `kept` holds the survivors so far,
latest first. -/
def Codec.transformFrom (codec : Codec α) (t : ElementTransformer α) (c : Cursor) (kept : List α) :
    Option (Except StateError (Option Bytes)) :=
  match decodeNext codec c with
  | .error e => some (.error e)
  | .ok none =>
    if kept.isEmpty then some (.ok none) else some ((encodeList codec kept.reverse).map some)
  | .ok (some (x, c')) =>
    match t.apply x with
    | none => codec |>.transformFrom t c' kept
    | some y =>
      match t.strategy with
      | .stopOnFirstIncluded => some (.ok (some (c'.buffer.drop c.position)))
      | .transformAll => codec |>.transformFrom t c' (y :: kept)
partial_fixpoint

/-- Transform a stored value. An absent value stays absent, and a list without survivors becomes
absent. -/
def transformList (codec : Codec α) (t : ElementTransformer α) :
    Option Bytes → Except StateError (Option Bytes)
  | none => .ok none
  | some bs => (codec.transformFrom t (Cursor.ofBytes bs) []).await

/-- The name under which the transformation of a codec's lists is reported. -/
def transformName (codec : Codec α) : String := s!"list-transform({codec.name})"

end AppendLists
