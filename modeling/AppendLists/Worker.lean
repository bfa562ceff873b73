import AppendLists.Backend.Basic

namespace AppendLists

/-!
# The compaction worker

A worker runs compaction passes one after the other. Jobs wait in a queue of bounded length; a job
that has been taken off the queue no longer counts. Reports come in the order of the jobs.

* `CompactionJob`, `CompactionReport`: what is asked for, and what comes of it;
* `runJobs`: the reports of several jobs in turn;
* `CompactionWorker`: the queue, with `trySubmit`, `takeJob` and `drain`;
* `Backend.compactionJob`: a job for a registered state.
-/

/-- One compaction pass to be made. -/
structure CompactionJob (ω : Type) where
  /-- The partition. -/
  partition : String
  /-- The filter of the pass. -/
  filter : Option (Filter ω)

/-- What came of a job. -/
structure CompactionReport where
  /-- The partition. -/
  partition : String
  /-- The report of the pass, or why it ended. -/
  result : Except StateError CompactionStats

variable {σ τ : Type}

/-- A job for a registered state. -/
def Backend.compactionJob {ω : Type} (b : Backend σ) (name : String)
    (filter : Option (Filter ω)) : Except StateError (CompactionJob ω) :=
  (b.info name).map fun _ => ⟨name, filter⟩

variable [Store σ]

/-- Run jobs in turn; a pass that fails does not keep the later ones from running. -/
def runJobs : List (CompactionJob (σ × τ)) → σ × τ → List CompactionReport × σ × τ
  | [], w => ([], w)
  | job :: jobs, w =>
    let (result, w) := compact job.partition job.filter w
    let (reports, w) := runJobs jobs w
    (⟨job.partition, result⟩ :: reports, w)

/-- A worker with its queue. -/
structure CompactionWorker (ω : Type) where
  /-- How many jobs may wait. -/
  capacity : Nat
  /-- The job that is being run. -/
  running : Option (CompactionJob ω)
  /-- The waiting jobs, first come first. -/
  waiting : List (CompactionJob ω)

namespace CompactionWorker

variable {ω : Type}

/-- A worker without jobs; its queue has room for at least one. -/
def spawn (capacity : Nat) : CompactionWorker ω := ⟨max capacity 1, none, []⟩

/-- Queue a job if there is room, and tell whether there was. -/
def trySubmit (job : CompactionJob ω) (w : CompactionWorker ω) : Bool × CompactionWorker ω :=
  if w.waiting.length < w.capacity then (true, { w with waiting := w.waiting ++ [job] })
  else (false, w)

/-- Start on the next waiting job, unless one is being run. -/
def takeJob (w : CompactionWorker ω) : CompactionWorker ω :=
  match w.running, w.waiting with
  | none, job :: jobs => { w with running := some job, waiting := jobs }
  | _, _ => w

/-- Finish the running job and all waiting ones. -/
def drain (w : CompactionWorker (σ × τ)) (world : σ × τ) : List CompactionReport × σ × τ :=
  runJobs (w.running.toList ++ w.waiting) world

end CompactionWorker

end AppendLists
