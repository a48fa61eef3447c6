import YiQiao.Lib.Dict
import YiQiao.Lib.Fallible
import YiQiao.Lib.Kleene
import YiQiao.Lib.Like
import YiQiao.Value
import YiQiao.Filter.Meaning
import YiQiao.Filter.Process
import YiQiao.Filter.Reading
import YiQiao.Filter.Conditions
import YiQiao.Filter.Correctness
import YiQiao.Server.Search
import YiQiao.Server.Isolation
import YiQiao.Server.Visibility
import YiQiao.Lib.Effect
import YiQiao.Memory.Add
import YiQiao.Memory.Chronicle
import YiQiao.Memory.DeleteAll
import YiQiao.Memory.Expiry
import YiQiao.Import.Blank
import YiQiao.Memory.Duplicates
import YiQiao.Memory.Crossing
import YiQiao.Memory.SessionScope
import YiQiao.Memory.LockPool
import YiQiao.Memory.Interference
import YiQiao.Server.Members
import YiQiao.Server.Owners
import YiQiao.Server.Ownership
import YiQiao.Server.Deduplicate
import YiQiao.Server.GraphAgreement
import YiQiao.Server.Overwrites
import YiQiao.Server.Config
import YiQiao.Server.Evolution
import YiQiao.Server.Exports
import YiQiao.Server.Listing
import YiQiao.Server.Purge
import YiQiao.Server.Refresh
import YiQiao.Server.RequestQuota
import YiQiao.Server.Secrecy
import YiQiao.Graph.Runs
import YiQiao.Import.Claims
import YiQiao.Import.Active
import YiQiao.Import.Branch
import YiQiao.Import.Concurrency
import YiQiao.Import.Budget
import YiQiao.Import.Discover
import YiQiao.Import.GraphItems
import YiQiao.Import.JsonLines
import YiQiao.Import.Keys
import YiQiao.Import.Resume
import YiQiao.Import.Provenance
import YiQiao.Import.Conserve
import YiQiao.Import.Retain
import YiQiao.Import.Quota
import YiQiao.Import.StoreChunk
import YiQiao.Import.HashRecords
import YiQiao.Import.Interrupted
import YiQiao.Import.SchemaVersion
import YiQiao.Import.Refusals
import YiQiao.Server.Confinement
import YiQiao.Import.Encoded
import YiQiao.Import.ChunkWeights
import YiQiao.Import.Overweight
import YiQiao.Server.SameIds
import YiQiao.Memory.Fetches
import YiQiao.Memory.Lexical
import YiQiao.Memory.Pending
import YiQiao.Memory.Capacity
import YiQiao.Memory.Evidence
import YiQiao.Server.Dashboard
import YiQiao.Memory.SavedMessages
import YiQiao.Server.Reembed
import YiQiao.Server.Rollback
import YiQiao.Server.VectorStatus
import YiQiao.Import.Abandoned
import YiQiao.Lib.Requests
import YiQiao.Import.Process
import YiQiao.Import.Traces
import YiQiao.Lib.Pieces
import YiQiao.Import.Contents
import YiQiao.Import.Submissions
import YiQiao.Import.Collisions
import YiQiao.Import.Descent
import YiQiao.Lib.Handlers
import YiQiao.Import.Progress
import YiQiao.Import.Finishing
import YiQiao.Import.RowTraces
import YiQiao.Import.Settling
import YiQiao.Import.Handled
import YiQiao.Lib.Sequels
import YiQiao.Import.Accounts
import YiQiao.Import.Counters
import YiQiao.Import.Reckoning
import YiQiao.Import.Totals
import YiQiao.Memory.History
import YiQiao.Lib.Machines
import YiQiao.Store.Faiss
import YiQiao.Store.FaissRefinement
