import Draugr.Lib.RobinHood
import Draugr.Bare.Defs
import Draugr.Bare.Layout
import Draugr.Bare.Sound
import Draugr.Bare.Insert
import Draugr.Bare.Delete
import Draugr.Bare.Find
import Draugr.Bare.Rebuild
import Draugr.Bare.Multimap
import Draugr.Bare.CounterRuns
import Draugr.Htc.Arena
import Draugr.Table.Defs
import Draugr.Table.Index
import Draugr.Table.Pairs
import Draugr.Table.Rebuild
import Draugr.Table.Ops
import Draugr.Table.Preserve
import Draugr.Table.Exact
import Draugr.Htc.Defs
import Draugr.Htc.Store
import Draugr.Htc.Hints
import Draugr.Htc.Settled
import Draugr.Htc.Place
import Draugr.Htc.Displace
import Draugr.Htc.Search
import Draugr.Htc.Insert
import Draugr.Htc.Calls
import Draugr.Htc.Grow
import Draugr.Htc.Runs
import Draugr.Htc.Refine
import Draugr.Htc.Loss
import Draugr.Htc.Reseed
import Draugr.Htc.Filter
import Draugr.Kv.Store
import Draugr.Cqf.Defs
import Draugr.Cqf.Counter
import Draugr.Cqf.Run
import Draugr.Lib.Segments
import Draugr.Epoch.Lists
import Draugr.Epoch.Safety
import Draugr.Epoch.Slots
import Draugr.Htc.Concurrent
import Draugr.Htc.Sections
import Draugr.Htc.Interleave
import Draugr.Htc.Removal
import Draugr.Cache.Books
import Draugr.Cache.Lru
import Draugr.Amq.Table
import Draugr.Amq.Cuckoo
import Draugr.Amq.Vacuum
import Draugr.Lib.Rank
import Draugr.Qf.RankSelect
import Draugr.Rsqf.Defs
import Draugr.Rsqf.Index
import Draugr.Rsqf.Insert
import Draugr.Rsqf.Delete
import Draugr.Cqf.Filter
import Draugr.Cqf.Layout
import Draugr.Cqf.Shift
import Draugr.Cqf.Insert
import Draugr.Cqf.InsertOnly
import Draugr.Cqf.Contents
import Draugr.Cqf.Delete
import Draugr.Bare.Formed
import Draugr.Lib.Cursor
import Draugr.Table.Iter
import Draugr.Bare.Books
import Draugr.Htc.Update
import Draugr.Bare.Load
import Draugr.Bare.Check
import Draugr.Bare.Seen
import Draugr.Bare.RemoveVal
import Draugr.Bare.Remove
import Draugr.Bare.Reinsert
import Draugr.Table.Succeeds
import Draugr.Memory.Defs
import Draugr.Memory.Parts
import Draugr.Memory.Held
import Draugr.Memory.Steps
import Draugr.Memory.Runs
import Draugr.Bare.Dress
import Draugr.Table.Map
import Draugr.Memory.FirstFit
import Draugr.Memory.Slots
import Draugr.Memory.Compact
import Draugr.Amq.VacuumRanges
import Draugr.Cqf.RoundTrip
import Draugr.Rsqf.Sound
import Draugr.Cqf.Foreign
import Draugr.Htc.Records
import Draugr.Htc.Pending
import Draugr.Htc.Clear
import Draugr.Kv.Iter
import Draugr.Htc.Match
import Draugr.Qf.Words
import Draugr.Amq.Storage
import Draugr.Table.Blocks
import Draugr.Table.Cleared
import Draugr.Htc.Locks
import Draugr.Htc.Linear
import Draugr.Htc.Migrate
import Draugr.Htc.Resize
import Draugr.Htc.Lazy
import Draugr.Bloom.Filter
import Draugr.Htc.Adapters
import Draugr.Htc.FilterLock
import Draugr.Cqf.Enumerate
import Draugr.Cqf.Replay
import Draugr.Cqf.Filled
import Draugr.Cqf.Regrow
import Draugr.Cqf.Merge
import Draugr.Htc.Debug
import Draugr.Htc.Finding
import Draugr.Htc.Waiting
import Draugr.Rsqf.Repair
import Draugr.Table.Counter
