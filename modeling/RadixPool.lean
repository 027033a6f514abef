import RadixPool.Archive.Basic
import RadixPool.Archive.Carrier
import RadixPool.Conversion.ElementRule
import RadixPool.Shape.Document
import RadixPool.Sharing.Census
import RadixPool.Sharing.Counts
import RadixPool.Vec.Display
import RadixPool.Vec.Document
import RadixPool.Proofs.Tree.Lookup
import RadixPool.Proofs.Tree.Append
import RadixPool.Proofs.Tree.Identity
import RadixPool.Proofs.Vec.Sound
import RadixPool.Proofs.KeyMap
import RadixPool.Proofs.Pool.Plan
import RadixPool.Proofs.Pool.Check
import RadixPool.Proofs.Pool.Document
import RadixPool.Proofs.Pool.Reading
import RadixPool.Proofs.Pool.Loader
import RadixPool.Proofs.Pool.Load
import RadixPool.Proofs.Vec.History
import RadixPool.Proofs.Pool.Builder
import RadixPool.Proofs.Pool.Save
import RadixPool.Proofs.Pool.Map
import RadixPool.Proofs.Tree.Outline
import RadixPool.Proofs.Pool.RoundTrip
import RadixPool.Proofs.PoolSet
import RadixPool.Proofs.LoaderSet
import RadixPool.Proofs.Record.Document
import RadixPool.Proofs.Archive.Pools
import RadixPool.Proofs.Archive.RoundTrip
import RadixPool.Proofs.Pool.Dedup
import RadixPool.Proofs.Pool.Limits
import RadixPool.Proofs.Pool.Reload
import RadixPool.Proofs.Pool.Valid
import RadixPool.Proofs.Pool.Renaming
import RadixPool.Proofs.Conversion.Session
import RadixPool.Proofs.Conversion.Total
import RadixPool.Proofs.PoolSet.History
import RadixPool.Proofs.Conversion.Counterpart
import RadixPool.Proofs.Conversion.Rebuild
import RadixPool.Proofs.Record.Reading
import RadixPool.Proofs.Record.Writing
import RadixPool.Proofs.Archive.Loaders
import RadixPool.Proofs.Pool.Loaded
import RadixPool.Proofs.Archive.Canonical
import RadixPool.Proofs.Archive.Resave
import RadixPool.Proofs.Tree.Path
import RadixPool.Proofs.Vec.WellFormed
import RadixPool.Proofs.Tree.Filled
import RadixPool.Proofs.Vec.Canonical
import RadixPool.Proofs.Archive.Isomorphic
import RadixPool.Proofs.Pool.Places
import RadixPool.Proofs.Pool.Requests
import RadixPool.Proofs.Tree.Renewal
import RadixPool.Proofs.Vec.PathCopying
import RadixPool.Proofs.Pool.Codec
import RadixPool.Proofs.Pool.Incremental
import RadixPool.Proofs.Pool.Verdict
import RadixPool.Proofs.Record.Types
import RadixPool.Proofs.Archive.Saving
import RadixPool.Proofs.Pool.Renumbering
import RadixPool.Proofs.Vec.Edits
import RadixPool.Proofs.Pool.Flags
import RadixPool.Proofs.Conversion.Trace
import RadixPool.Proofs.Sharing.Families
import RadixPool.Proofs.Tree.Room
import RadixPool.Proofs.Tree.Counting
import RadixPool.Proofs.Vec.Walk
import RadixPool.Proofs.PoolSet.Independence
import RadixPool.Proofs.DataType
import RadixPool.Proofs.Sharing.Census
