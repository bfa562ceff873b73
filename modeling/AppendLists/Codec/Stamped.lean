import AppendLists.Codec.Basic

namespace AppendLists

/-!
# Stamped elements

An element together with the time it was last written, for states whose elements expire.

* `Stamped`: the pair;
* `Codec.stamped`: the codec that writes the time in front of the element.
-/

/-- A value and the time in milliseconds at which it was last written. -/
structure Stamped (α : Type) where
  /-- The value. -/
  value : α
  /-- When it was last written. -/
  lastAccess : Int64
deriving DecidableEq

/-- Eight bytes of time, most significant first, then the element as `codec` writes it. The time is
written also if the element cannot be. -/
def Codec.stamped {α : Type} (codec : Codec α) : Codec (Stamped α) where
  name := s!"ttl({codec.name})"
  version := codec.version
  write item out :=
    codec.write item.value (out ++ Bytes.ofNatBE 8 item.lastAccess.toUInt64.toNat)
  decode c := do
    let (lastAccess, c) ← c.signedBE
    let (value, c) ← codec.decode c
    return (⟨value, lastAccess⟩, c)

end AppendLists
