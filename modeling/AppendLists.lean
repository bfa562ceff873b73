import AppendLists.Backend.Snapshot
import AppendLists.Catalogue.Conversion
import AppendLists.ListFormat.Conformance
import AppendLists.ListFormat.Decoder
import AppendLists.State.Handle
import AppendLists.Store.Engine
import AppendLists.Worker
import AppendLists.Proofs.Memory.Contents
import AppendLists.Proofs.Memory.Invariant
import AppendLists.Proofs.Memory.Pass
import AppendLists.Proofs.Memory.Interleaving
import AppendLists.Proofs.Memory.Overlap
import AppendLists.Proofs.Key.Addressing
import AppendLists.Proofs.ListFormat.RoundTrip
import AppendLists.Proofs.ListFormat.Grammar
import AppendLists.Proofs.Catalogue.SelfFraming
import AppendLists.Proofs.Log.Checkpoint
import AppendLists.Proofs.Log.Durable
import AppendLists.Proofs.Log.Restart
import AppendLists.Proofs.Log.TornPass
import AppendLists.Proofs.Log.Crash
import AppendLists.Proofs.Log.DamagedLength
import AppendLists.Proofs.Backend.FailedUpgrade
import AppendLists.Proofs.State.ListMap
import AppendLists.Proofs.State.ListRefinement
import AppendLists.Proofs.Log.EntryLimit
import AppendLists.Proofs.Log.DamagedRecord
import AppendLists.Proofs.Store.Merging
import AppendLists.Proofs.Store.Equivalence
import AppendLists.Proofs.Backend.Registration
import AppendLists.Proofs.State.Expiry
import AppendLists.Proofs.Backend.Upgrade
import AppendLists.Proofs.Log.AnyFile
import AppendLists.Proofs.Log.PassAmidChanges
import AppendLists.Proofs.Log.BoundedLoss
import AppendLists.Proofs.Backend.SchemaSafety
import AppendLists.Proofs.ListFormat.EarlyExit
import AppendLists.Proofs.State.Moves
import AppendLists.Proofs.State.FailedMove
import AppendLists.Proofs.Log.Acceptance
import AppendLists.Proofs.Memory.Representation
import AppendLists.Proofs.ListFormat.TransformAll
import AppendLists.Proofs.State.LiveElements
import AppendLists.Proofs.Store.Convergence
import AppendLists.Proofs.Key.Order
import AppendLists.Proofs.Key.Identity
import AppendLists.Proofs.State.FailedCall
import AppendLists.Proofs.ListFormat.Ending
import AppendLists.Proofs.Catalogue.Verification
import AppendLists.Proofs.Backend.Snapshot
import AppendLists.Proofs.State.Registers
import AppendLists.Proofs.Store.Batching
import AppendLists.Proofs.Cursor.Words
import AppendLists.Proofs.Log.Stream
