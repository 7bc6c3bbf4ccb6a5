import Objsds.Foundation.Program
import Objsds.Foundation.Results
import Objsds.Foundation.Pool
import Objsds.Foundation.Rehearsal
import Objsds.Foundation.Solo
import Objsds.Foundation.SortedList
import Objsds.Foundation.SortedMap
import Objsds.Foundation.Linearization
import Objsds.Foundation.Simulation
import Objsds.Foundation.Descent
import Objsds.Foundation.Interpret
import Objsds.Store.Location
import Objsds.Store.Interface
import Objsds.Store.Hex
import Objsds.Store.History
import Objsds.Store.Truthful
import Objsds.Store.Ideal
import Objsds.Structure.Fallible
import Objsds.Structure.Procedure
import Objsds.Structure.Optimistic
import Objsds.Structure.Conflict
import Objsds.Json.Tree
import Objsds.Json.Serde
import Objsds.Json.Compact
import Objsds.Core.Lifecycle
import Objsds.Core.Document
import Objsds.Core.Map
import Objsds.Core.MapLinearizable
import Objsds.Core.Log
import Objsds.Queue.Document
import Objsds.Queue.Operations
import Objsds.Queue.Procedures
import Objsds.Core.LogHistory
import Objsds.Core.LogLookup
import Objsds.Structure.Undisturbed
import Objsds.Queue.Changes
import Objsds.Queue.Reference
import Objsds.Queue.Drain
import Objsds.Queue.Stock
import Objsds.Queue.Leases
import Objsds.Queue.Fencing
import Objsds.Queue.Blocking
import Objsds.Structure.Genesis
import Objsds.Core.Builder
import Objsds.Queue.Builder
import Objsds.Core.Client
import Objsds.Binding.Execute
import Objsds.Binding.Depth
import Objsds.Memory.Store
import Objsds.Memory.Rehearsal
import Objsds.Memory.Tokens
import Objsds.Structure.Uncontended
import Objsds.Binding.Readable
import Objsds.Binding.Handles
import Objsds.Binding.Validate
import Objsds.Binding.Codes
import Objsds.Binding.Closing
import Objsds.Binding.Ownership
import Objsds.System.Calls
import Objsds.System.Access
import Objsds.System.Silent
import Objsds.System.Site
import Objsds.System.Creation
import Objsds.System.Formats
import Objsds.System.Mismatch
import Objsds.System.Isolation
import Objsds.S3.Store
import Objsds.S3.Contract
import Objsds.S3.Conflict
import Objsds.Filesystem.Path
import Objsds.Filesystem.Format
import Objsds.Filesystem.Disk
import Objsds.Filesystem.Store
import Objsds.Filesystem.Envelope
import Objsds.Filesystem.Resolve
import Objsds.Filesystem.Managed
import Objsds.Filesystem.Steps
import Objsds.Filesystem.Effects
import Objsds.Filesystem.Knowledge
import Objsds.Filesystem.Pieces
import Objsds.Filesystem.Locking
import Objsds.Filesystem.Publishing
import Objsds.Filesystem.Calls
import Objsds.Filesystem.Confinement
import Objsds.Filesystem.Layout
import Objsds.Filesystem.Refinement
import Objsds.System.Races
import Objsds.System.LostRaces
import Objsds.Memory.Mirror
import Objsds.Filesystem.Unhindered
import Objsds.Filesystem.Equivalence
import Objsds.Filesystem.Wraparound
import Objsds.Filesystem.Aliases
import Objsds.Filesystem.Restart
import Objsds.Foundation.Throughout
import Objsds.Filesystem.Atomicity
import Objsds.Filesystem.Survival
import Objsds.Core.MapInDoubt
import Objsds.Filesystem.Liveness
import Objsds.System.OnDisk
import Objsds.S3.Refinement
import Objsds.System.OnS3
import Objsds.Filesystem.Discipline
import Objsds.System.Remnants
import Objsds.System.PowerLoss
