import RealmHnsw.Basic
import RealmHnsw.Heap
import RealmHnsw.Search
import RealmHnsw.Visits
import RealmHnsw.Ieee
import RealmHnsw.SearchLoop
import RealmHnsw.Graph
import RealmHnsw.Storage
import RealmHnsw.Index
import RealmHnsw.Lengths
import RealmHnsw.Linking
import RealmHnsw.Runs
import RealmHnsw.Invariants
import RealmHnsw.Guarantees
import RealmHnsw.Defects
import RealmHnsw.Connectivity
import RealmHnsw.Locking
import RealmHnsw.Interleaving
import RealmHnsw.Knn
import RealmHnsw.Decoder
import RealmHnsw.Erase
import RealmHnsw.Adjacency
import RealmHnsw.Schedules
import RealmHnsw.Table
import RealmHnsw.Layered
import RealmHnsw.Verify
import RealmHnsw.SelfLinks
import RealmHnsw.Symmetry
