import AppendLists.Proofs.Codec.Appending
import AppendLists.Proofs.ListFormat.RoundTrip
import AppendLists.Store.MergeOperator
import Mathlib.Data.List.Forall2

namespace AppendLists

/-!
# Operands in batches

Stores combine operands when it suits them: at every read, in a pass, before a move. It does not show in
the bytes. All ways of combining come down to one operand more at a time, and to that it makes no
difference where one batch ends and the next one begins.

* `MergeOperator.extend`: one operand more, with a delimiter in front unless it is the first piece;
* `MergeOperator.some_fullMerge`: many operands, one at a time;
* `MergeOperator.inBatches`: batch by batch, each result the existing value of the next batch;
* `MergeOperator.extend_fullMerge_none`: a batch that was made a single operand before;
* `encodeList_append_eq`, `encodeList_flatten`: written lists in a row, also where one of them cannot be
  written.
-/

namespace MergeOperator

variable {op : MergeOperator} {existing : Option Bytes}

/-- A value with one operand more: the delimiter stands between the two, and not in front of an operand
that has nothing to follow. -/
def extend (op : MergeOperator) : Option Bytes → Bytes → Option Bytes
  | none, operand => some operand
  | some value, operand => some (value ++ op.delimiter :: operand)

/-- The value after batches of operands that were combined in turn, each with the result of those
before as the existing value. -/
def inBatches (op : MergeOperator) : Option Bytes → List (List Bytes) → Option Bytes
  | existing, [] => existing
  | existing, batch :: batches => op.inBatches (some (op.fullMerge existing batch)) batches

/-- What becomes of a batch: it stays, or it is combined into a single operand. -/
def Collapses (op : MergeOperator) (batch operands : List Bytes) : Prop :=
  operands = batch ∨ operands = [op.fullMerge none batch]

/-! ### One at a time -/

theorem foldl_extend_some (op : MergeOperator) (value : Bytes) (operands : List Bytes) :
    operands.foldl op.extend (some value) = some (op.fullMerge (some value) operands) := by
  induction operands generalizing value with
  | nil => rfl
  | cons operand operands ih =>
    -- the first operand is a batch by itself
    have hbatch : (some value).toList ++ [operand] ≠ [] := by simp
    have hmerge : op.fullMerge (some value) ([operand] ++ operands)
        = op.fullMerge (some (op.fullMerge (some value) [operand])) operands :=
      op.fullMerge_append (some value) hbatch
    rw [List.foldl_cons, extend, ih]
    exact congrArg some hmerge.symm

/-- Many operands combined at once are combined one at a time, unless there is nothing to combine. -/
theorem some_fullMerge {operands : List Bytes} (h : existing.toList ++ operands ≠ []) :
    some (op.fullMerge existing operands) = operands.foldl op.extend existing := by
  cases existing with
  | some value => exact (foldl_extend_some op value operands).symm
  | none =>
    cases operands with
    | nil => exact absurd rfl h
    | cons operand operands => exact (foldl_extend_some op operand operands).symm

theorem fullMerge_eq_foldl (op : MergeOperator) (existing : Option Bytes) (operands : List Bytes) :
    op.fullMerge existing operands = (operands.foldl op.extend existing).getD [] := by
  by_cases h : existing.toList ++ operands = []
  · obtain ⟨hexisting, rfl⟩ := List.append_eq_nil_iff.1 h
    obtain rfl : existing = none := Option.toList_eq_nil_iff.1 hexisting
    rfl
  · rw [← some_fullMerge h, Option.getD_some]

/-! ### Batches -/

/-- Where a batch ends is not seen in the value. -/
theorem inBatches_eq_foldl {batches : List (List Bytes)} (hne : ∀ batch ∈ batches, batch ≠ []) :
    op.inBatches existing batches = batches.flatten.foldl op.extend existing := by
  induction batches generalizing existing with
  | nil => rfl
  | cons batch batches ih =>
    obtain ⟨hbatch, hbatches⟩ := List.forall_mem_cons.1 hne
    -- what the first batch comes to is what the fold over it comes to
    rw [inBatches, ih hbatches, some_fullMerge (by simp [hbatch]), List.flatten_cons,
      List.foldl_append]

/-- A batch that was made a single operand counts for its operands. -/
theorem extend_fullMerge_none {batch : List Bytes} (hne : batch ≠ []) :
    op.extend existing (op.fullMerge none batch) = batch.foldl op.extend existing := by
  -- without a value the batch stands alone, and behind a value its first piece has the delimiter in front
  cases existing with
  | none => exact some_fullMerge (by simpa using hne)
  | some value =>
    rw [foldl_extend_some]
    exact congrArg some (Bytes.joinWith_cons op.delimiter value hne).symm

theorem foldl_extend_of_collapses {batches collapsed : List (List Bytes)}
    (hne : ∀ batch ∈ batches, batch ≠ []) (h : List.Forall₂ op.Collapses batches collapsed) :
    collapsed.flatten.foldl op.extend existing = batches.flatten.foldl op.extend existing := by
  induction h generalizing existing with
  | nil => rfl
  | cons hbatch _ ih =>
    obtain ⟨hhead, htail⟩ := List.forall_mem_cons.1 hne
    rw [List.flatten_cons, List.flatten_cons, List.foldl_append, List.foldl_append, ih htail]
    rcases hbatch with rfl | rfl
    · rfl
    · rw [List.foldl_cons, List.foldl_nil, extend_fullMerge_none hhead]

end MergeOperator

/-! ### Written lists -/

variable {α : Type} {codec : Codec α}

/-- Lists in a row are written one after the other, with the delimiter between them, and what cannot be
written in the first one is what fails. -/
theorem encodeList_append_eq (hc : codec.Appending) {xs ys : List α} (hxs : xs ≠ []) (hys : ys ≠ []) :
    encodeList codec (xs ++ ys) = do
      let a ← encodeList codec xs
      let b ← encodeList codec ys
      return a ++ delimiter :: b := by
  rw [hc.encodeList_eq, hc.encodeList_eq, hc.encodeList_eq, List.mapM_append]
  cases hps : xs.mapM codec.encode with
  | error e => rfl
  | ok ps =>
    cases hqs : ys.mapM codec.encode with
    | error e => rfl
    | ok qs =>
      exact congrArg Except.ok (Bytes.joinWith_append delimiter (ne_nil_of_mapM_eq_ok hps hxs)
        (ne_nil_of_mapM_eq_ok hqs hys))

/-- Lists in a row are their written forms, with the delimiter between them. -/
theorem encodeList_flatten (hc : codec.Appending) {xss : List (List α)} (hne : ∀ xs ∈ xss, xs ≠ []) :
    encodeList codec xss.flatten
      = (xss.mapM (encodeList codec)).map (Bytes.joinWith delimiter) := by
  induction xss with
  | nil => rfl
  | cons xs xss ih =>
    obtain ⟨hxs, hxss⟩ := List.forall_mem_cons.1 hne
    rw [List.flatten_cons, List.mapM_cons]
    -- the last list has no delimiter behind it
    by_cases hlast : xss = []
    · subst hlast
      rw [List.flatten_nil, List.append_nil]
      cases encodeList codec xs <;> rfl
    · obtain ⟨ys, hys⟩ := List.exists_mem_of_ne_nil xss hlast
      have hrest : xss.flatten ≠ [] := fun h =>
        hxss ys hys (List.flatten_eq_nil_iff.1 h ys hys)
      rw [encodeList_append_eq hc hxs hrest, ih hxss]
      cases encodeList codec xs with
      | error e => rfl
      | ok a =>
        cases hbs : xss.mapM (encodeList codec) with
        | error e => rfl
        | ok bs =>
          exact congrArg Except.ok
            (Bytes.joinWith_cons delimiter a (ne_nil_of_mapM_eq_ok hbs hlast)).symm

/-! ### All ways of combining -/

/-- **How operands are batched does not show.** Operands that are combined at once are combined one at
a time: the first piece stands alone, and each other one has the delimiter in front. Cut anywhere into
batches that are not empty, they come to the same bytes if they are combined batch by batch, and if
some of the batches are made single operands before, whatever the existing value is. With the delimiter
of lists, joining the written forms of lists that are not empty writes their elements in a row, with the
first one as the existing value or as an operand, and it fails where that fails. -/
theorem MergeOperator.fullMerge_in_batches (op : MergeOperator) (existing : Option Bytes)
    (batches : List (List Bytes)) (hne : ∀ batch ∈ batches, batch ≠ []) (codec : Codec α)
    (hc : codec.Appending) (xss : List (List α)) (hlists : ∀ xs ∈ xss, xs ≠ []) :
    op.fullMerge existing batches.flatten
      = (batches.flatten.foldl op.extend existing).getD [] ∧
    op.inBatches existing batches
      = (if batches = [] then existing else some (op.fullMerge existing batches.flatten)) ∧
    (∀ collapsed, List.Forall₂ op.Collapses batches collapsed →
      op.fullMerge existing collapsed.flatten = op.fullMerge existing batches.flatten) ∧
    (xss.mapM (encodeList codec)).map ((stringAppend AppendLists.delimiter).fullMerge none)
      = encodeList codec xss.flatten ∧
    ∀ first others, xss.mapM (encodeList codec) = .ok (first :: others) →
      encodeList codec xss.flatten
        = .ok ((stringAppend AppendLists.delimiter).fullMerge (some first) others) := by
  refine ⟨fullMerge_eq_foldl .., ?_, fun collapsed hcollapsed => ?_, ?_, ?_⟩
  · -- only the first batch can meet an absent value, and it is not empty
    rw [inBatches_eq_foldl hne]
    cases batches with
    | nil => rfl
    | cons batch batches =>
      have hbatch : batch ≠ [] := hne batch List.mem_cons_self
      rw [if_neg (List.cons_ne_nil _ _), some_fullMerge (by simp [hbatch])]
  · rw [fullMerge_eq_foldl, fullMerge_eq_foldl, foldl_extend_of_collapses hne hcollapsed]
  · exact (encodeList_flatten hc hlists).symm
  · intro first others hbs
    rw [encodeList_flatten hc hlists, hbs]
    rfl

/-- Three operands behind a value, one of them empty, in two batches of which the second one was made a
single operand; and two written lists of byte strings, one of which holds the delimiter. -/
theorem MergeOperator.fullMerge_in_two_batches :
    let op := stringAppend 0x7C
    let batches : List (List Bytes) := [[[0x31]], [[0x32, 0x32], []]]
    let xss : List (List Bytes) := [[[7], [AppendLists.delimiter]], [[8]]]
    (∀ batch ∈ batches, batch ≠ []) ∧ Codec.bytes.Appending ∧ (∀ xs ∈ xss, xs ≠ []) ∧
      op.fullMerge (some [0x30]) batches.flatten
        = [0x30, 0x7C, 0x31, 0x7C, 0x32, 0x32, 0x7C] ∧
      op.inBatches (some [0x30]) batches
        = some [0x30, 0x7C, 0x31, 0x7C, 0x32, 0x32, 0x7C] ∧
      op.fullMerge (some [0x30]) [[0x31], [0x32, 0x32, 0x7C]]
        = op.fullMerge (some [0x30]) batches.flatten ∧
      (xss.mapM (encodeList Codec.bytes)).map
          ((stringAppend AppendLists.delimiter).fullMerge none)
        = encodeList Codec.bytes xss.flatten := by
  intro op batches xss
  have hne : ∀ batch ∈ batches, batch ≠ [] := by decide
  have hc : Codec.bytes.Appending := Codec.writesForm_bytes.appending
  have hlists : ∀ xs ∈ xss, xs ≠ [] := by decide
  obtain ⟨-, hturn, hcollapsed, hwritten, -⟩ :=
    op.fullMerge_in_batches (some [0x30]) batches hne Codec.bytes hc xss hlists
  refine ⟨hne, hc, hlists, rfl, hturn, ?_, hwritten⟩
  exact hcollapsed [[[0x31]], [[0x32, 0x32, 0x7C]]] (.cons (.inl rfl) (.cons (.inr rfl) .nil))

/-- A batch without operands counts as an empty piece if there is no value yet. -/
example : (MergeOperator.stringAppend 0x2C).inBatches none [[], [[1]]] = some [0x2C, 1] := rfl

end AppendLists
