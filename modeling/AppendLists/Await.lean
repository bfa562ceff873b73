/-!
# Computations that may not end

A loop without a bound of its own may go on for ever. Such a computation is an `Option`, which is `none`
if there is no end to it.

* `Option.await`: the result of a computation. There is nothing to be said about the result of one that
  does not end: waiting for it does not end either.
-/

namespace Option

variable {ρ : Type}

/-- Wait for the result of a computation. -/
def await [Nonempty ρ] (computation : Option ρ) : ρ :=
  match computation with
  | some result => result
  | none => none |>.await
partial_fixpoint

@[simp] theorem await_some [Nonempty ρ] (result : ρ) : (some result).await = result := by
  rw [await]

theorem await_eq [Nonempty ρ] {computation : Option ρ} {result : ρ}
    (h : computation = some result) : computation.await = result := by
  rw [h, await_some]

end Option
