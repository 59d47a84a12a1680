import Collette.Collection.Atomicity
import Collette.Collection.Builder
import Collette.Collection.Faults
import Collette.Collection.Linearizable
import Collette.Collection.Refinement
import Collette.Collection.Replay
import Collette.Key.Canonical
import Collette.Scan.Cursors
import Collette.Scan.Lookup
import Collette.Scan.Pagination
import Collette.Scan.Panics
import Collette.Scan.Prefixes
import Collette.Scan.Ranges
import Collette.Scan.Selections
import Collette.Store.Agreement
import Collette.Store.Clients
import Collette.Store.Gate
import Collette.Store.LocksQueued
import Collette.Store.Prepare
import Collette.Store.RedbLocks
import Collette.Store.Requests
import Collette.Store.Threads
