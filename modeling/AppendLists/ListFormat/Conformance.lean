import AppendLists.ListFormat.Basic

namespace AppendLists

/-!
# Checking a codec against samples

A codec is usable for delimited lists when every sample survives a round trip and decoding stops
exactly at the end of its written form, even with a delimiter and further bytes behind it.

* `verifySample`: the check of one sample, which tells whether its form holds the delimiter;
* `verifyCodec`: the check of several, with a `ConformanceReport`.
-/

/-- The outcome of a successful check. -/
structure ConformanceReport where
  /-- The codec's name. -/
  codec : String
  /-- The number of samples. -/
  samples : Nat
  /-- The samples whose written form holds the delimiter: harmless for a codec that frames its
  elements. -/
  collisions : Nat
deriving DecidableEq

variable {α : Type} [DecidableEq α]

/-- Check one sample; `describe` words it in errors. The answer is whether its written form holds
the delimiter. -/
def verifySample (codec : Codec α) (describe : α → String) (x : α) : Except StateError Bool := do
  let bs ← codec.encode x
  if bs.isEmpty then .error (.corrupt (.emptyEncoding codec.name (describe x)))
  else
    let (y, c) ← codec.decode (Cursor.ofBytes (bs ++ delimiter :: bs))
    if c.position ≠ bs.length then
      .error (.corrupt (.notSelfFraming codec.name c.position bs.length (describe x)))
    else if y ≠ x then .error (.corrupt (.noRoundTrip codec.name (describe x) (describe y)))
    else return bs.contains delimiter

/-- Check every sample; the first that fails is the error. -/
def verifyCodec (codec : Codec α) (describe : α → String) (xs : List α) :
    Except StateError ConformanceReport := do
  let collisions ← xs.mapM (verifySample codec describe)
  return ⟨codec.name, xs.length, collisions.count true⟩

end AppendLists
