import AppendLists.Store.Basic

namespace AppendLists

/-!
# Merging namespaces

The written lists of several keys are moved behind the list of another, without decoding: each
source is read, deleted, and merged into the target. A failure ends the move where it is.

* `MoveStats`: what a move did;
* `moveValue`, `moveValues`: one source, and several in turn.
-/

/-- What a move did. -/
structure MoveStats where
  /-- The sources whose value was moved. -/
  moved : Nat
  /-- The sources without a value, or with an empty one. -/
  skipped : Nat
  /-- The bytes that were moved. -/
  bytes : Nat
deriving DecidableEq

/-- The move of nothing. -/
def MoveStats.none : MoveStats := ⟨0, 0, 0⟩

variable {σ : Type} [Store σ]

/-- Move the value of one source behind the target's. -/
def moveValue (name : String) (target source : Bytes) (stats : MoveStats) :
    Call σ StateError MoveStats := do
  match ← (Store.get name source).attempting .mergingNamespaces with
  | some (b :: bs) =>
    let value := b :: bs
    -- deleted before merged, so that a source that is the target keeps its list
    (Store.delete name source).attempting .mergingNamespaces
    (Store.merge name target value).attempting .mergingNamespaces
    return { stats with moved := stats.moved + 1, bytes := stats.bytes + value.length }
  | _ => return { stats with skipped := stats.skipped + 1 }

/-- Move the values of several sources in turn. -/
def moveValues (name : String) (target : Bytes) :
    List Bytes → MoveStats → Call σ StateError MoveStats
  | [], stats => Call.answer stats
  | source :: sources, stats => do
    let stats ← moveValue name target source stats
    moveValues name target sources stats

end AppendLists
