import AppendLists.Bytes

namespace AppendLists

/-!
# Merge operators

How a store combines the operands that were merged into one key.

* `MergeOperator.fullMerge`: an existing value and pending operands combined, in any batches with
  the same result (`fullMerge_append`).
-/

/-- How merge operands for one key are combined. -/
inductive MergeOperator where
  /-- Operands in order of arrival, the byte `delimiter` between consecutive pieces. -/
  | stringAppend (delimiter : UInt8)
deriving DecidableEq

namespace MergeOperator

/-- The byte between two pieces. -/
def delimiter : MergeOperator → UInt8
  | stringAppend d => d

/-- An existing value, if there is one, combined with pending operands. -/
def fullMerge (op : MergeOperator) (existing : Option Bytes) (operands : List Bytes) : Bytes :=
  Bytes.joinWith op.delimiter (existing.toList ++ operands)

/-- Operands may be combined in two batches. -/
theorem fullMerge_append (op : MergeOperator) (existing : Option Bytes) {ps qs : List Bytes}
    (h : existing.toList ++ ps ≠ []) :
    op.fullMerge existing (ps ++ qs) = op.fullMerge (some (op.fullMerge existing ps)) qs := by
  unfold fullMerge
  by_cases hq : qs = []
  · simp [hq, Bytes.joinWith]
  · rw [← List.append_assoc, Bytes.joinWith_append _ h hq]
    exact (Bytes.joinWith_cons _ _ hq).symm

end MergeOperator

end AppendLists
