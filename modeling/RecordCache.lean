import RecordCache.Config.Codec
import RecordCache.FieldKey
import RecordCache.Freshness
import RecordCache.Guard
import RecordCache.Hook
import RecordCache.Key.Composite
import RecordCache.Merge.Connection
import RecordCache.Merge.Window
import RecordCache.Proofs.Chain.Absence
import RecordCache.Proofs.Chain.Agreement
import RecordCache.Proofs.Chain.BatchLoad
import RecordCache.Proofs.Chain.Cascade
import RecordCache.Proofs.Chain.Changes
import RecordCache.Proofs.Chain.Dates
import RecordCache.Proofs.Chain.Purge
import RecordCache.Proofs.Chain.RoundTrip
import RecordCache.Proofs.Chain.WriteThrough
import RecordCache.Proofs.Key.Composite
import RecordCache.Proofs.Lru.Refinement
import RecordCache.Proofs.Merge.Connection
import RecordCache.Proofs.Merge.Pagination
import RecordCache.Proofs.Record.Codec
import RecordCache.Proofs.Record.Worklist
import RecordCache.Proofs.Store.Atomic
import RecordCache.Proofs.Store.FastMerge
import RecordCache.Proofs.Store.History
import RecordCache.Proofs.Store.Readable
import RecordCache.Session
import RecordCache.Proofs.Store.Trim
import RecordCache.Proofs.Merge.Absorb
import RecordCache.Proofs.Memory.Again
import RecordCache.Proofs.Store.Again
import RecordCache.Proofs.Chain.Again
import RecordCache.Proofs.Lru.Account
import RecordCache.Proofs.Merge.Window
import RecordCache.Proofs.Merge.Grouping
import RecordCache.Proofs.Merge.ByField
import RecordCache.Proofs.Freshness
import RecordCache.Proofs.Json.Canonical
import RecordCache.Proofs.Pattern.Expression
import RecordCache.Proofs.Pattern.Pieces
import RecordCache.Proofs.FieldKey
import RecordCache.Proofs.Lru.Inclusion
import RecordCache.Proofs.Chain.Build
import RecordCache.Proofs.Chain.Repeat
import RecordCache.Proofs.Store.Limits
