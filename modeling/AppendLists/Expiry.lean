import AppendLists.Codec.Stamped
import AppendLists.Transform

namespace AppendLists

/-!
# Expiry

Stamped elements expire a fixed time after they were last written. Times are signed 64-bit
milliseconds; a deadline beyond their range counts as the end of the range.

* `Time.saturate`, `Time.advance`: sums that stay at the ends of the range, or wrap around it;
* `isExpired`: whether the deadline of an element has come;
* `expiryFilter`: the transformer that drops expired elements. Elements are appended in order of
  time, so it stops at the first live one.
-/

namespace Time

/-- The representable time nearest to an exact one. -/
def saturate (i : Int) : Int := max (-0x8000000000000000) (min 0x7FFFFFFFFFFFFFFF i)

/-- A clock moved on by some milliseconds; it wraps at the end of the range. -/
def advance (now millis : Int64) : Int64 := now + millis

end Time

/-- Whether an element last written at `lastAccess` has outlived `ttl` at the time `now`. -/
def isExpired (ttl lastAccess now : Int64) : Bool :=
  Time.saturate (lastAccess.toInt + ttl.toInt) ≤ now.toInt

/-- Drops the elements that are expired at the time `now`. -/
def expiryFilter {α : Type} (ttl now : Int64) : ElementTransformer (Stamped α) where
  apply item := if isExpired ttl item.lastAccess now then none else some item
  strategy := .stopOnFirstIncluded

end AppendLists
