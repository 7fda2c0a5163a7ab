import RealmHnsw.Graph
import RealmHnsw.Storage
/-!
# The public operations

`insert`, `set`, `erase` and `clear` change the index and persist it; `search_knn` and
`search_radius` read it. Each is the body of its critical section: the locking around them is
modelled in `RealmHnsw.Locking`. A call that throws returns the exception and no index: `insert`
throws from `validate_vector_dimension` before it changes anything, or from a distance call on two
lengths, which no reachable index makes (`RealmHnsw.Guarantees`).
-/

namespace RealmHnsw

section

variable (env : Env)

/-- The greedy descent of `insert` and `search_knn`: `n` layers from `lc` down, each a
`search_layer(query, curr, 1, lc)` that moves `curr` to its first result. -/
def descend (m : NodeMap) (metric : DistanceMetric) (query : List Double) :
    Nat → Nat → Option Int → Except HnswError (Option Int)
  | _, 0, curr => .ok curr
  | lc, n + 1, curr => do
    let results ← searchLayer env.fpu m metric query curr 1 lc
    descend m metric query (lc - 1) n (results.head?.or curr)

/-- The neighbours `insert` links at layer `lc`: `select_neighbors_simple` at layer 0, the
heuristic with `extend_candidates` above. -/
def chooseNeighbors (cfg : Config) (vector : List Double) (m : NodeMap)
    (candidates : List (Int × Double)) (lc : Nat) : Except HnswError (List Int) :=
  if lc = 0 then .ok (selectNeighborsSimple candidates (cfg.maxConn lc))
  else selectNeighborsHeuristic env.fpu m cfg.metric vector candidates (cfg.maxConn lc) lc true

/-- One layer `lc` of `insert`'s linking loop: search with `ef_construction`, choose the
neighbours, link the new node to each, prune each, and move `curr` to the nearest candidate. -/
def linkLayer (cfg : Config) (key : Int) (vector : List Double) (m : NodeMap) (curr : Option Int)
    (lc : Nat) : Except HnswError (NodeMap × Option Int) := do
  let candidates ← searchLayerWithDistances env.fpu m cfg.metric vector curr cfg.efConstruction lc
  let neighbors ← chooseNeighbors env cfg vector m candidates lc
  let m := neighbors.foldl (fun m nb => m.connectNodes key nb lc) m
  let m ← neighbors.foldlM (fun m nb => pruneConnections env.fpu cfg m nb lc) m
  pure (m, (candidates.head?.map (·.1)).or curr)

/-- `for (int lc = node_layer; lc >= 0; --lc)`: the layers `n - 1` down to `0`. -/
def linkLayers (cfg : Config) (key : Int) (vector : List Double) :
    Nat → NodeMap → Option Int → Except HnswError (NodeMap × Option Int)
  | 0, m, curr => .ok (m, curr)
  | n + 1, m, curr => do
    let (m, curr) ← linkLayer env cfg key vector m curr n
    linkLayers cfg key vector n m curr

/-- The `Node` `insert` builds, with `connections.resize(node_layer + 1)`. -/
def newNode (key : Int) (vector : List Double) (nodeLayer : Nat) : Node :=
  ⟨key, vector, nodeLayer, List.replicate (nodeLayer + 1) []⟩

/-- `insert(key, value)`, with `vector` the list `get_vector_for_key(key)` reads from the row and
`draw` the draw of `select_layer`. -/
def insert (key : Int) (vector : List Double) (draw : Nat) (idx : HNSWIndex) :
    Except HnswError HNSWIndex :=
  if vector.isEmpty then .ok idx
  else do
    let dim ← validateVectorDimension idx.config.vectorDimension vector
    let cfg := { idx.config with vectorDimension := dim }
    let nodeLayer := selectLayer draw
    let newNode := newNode key vector nodeLayer
    if idx.vectors.nodes.isEmpty then
      .ok (saveToStorage env.nullKey { idx with
        config := cfg
        vectors := idx.vectors.insertOrAssign newNode
        entryPoint := some key
        entryPointLayer := nodeLayer })
    else do
      let curr ← descend env idx.vectors cfg.metric vector idx.entryPointLayer.toNat
        (idx.entryPointLayer - nodeLayer).toNat idx.entryPoint
      let (m, _) ← linkLayers env cfg key vector (nodeLayer + 1)
        (idx.vectors.insertOrAssign newNode) curr
      let top := (nodeLayer : Int) > idx.entryPointLayer
      .ok (saveToStorage env.nullKey { idx with
        config := cfg
        vectors := m
        entryPoint := if top then some key else idx.entryPoint
        entryPointLayer := if top then nodeLayer else idx.entryPointLayer })

/-- The entry-point rescan of `erase`: the first node, in map order, of greatest layer. -/
def rescan (nodes : List Node) : Option Int × Int :=
  nodes.foldl (fun acc n => if n.layer > acc.2 then (some n.objKey, n.layer) else acc) (none, -1)

/-- The disconnect loop of `erase` over the layers `ls`; a layer past `connections.size()` has
an empty list here. -/
def eraseLinks (key : Int) : List Nat → NodeMap → NodeMap
  | [], m => m
  | l :: ls, m =>
    let conn := m.conns key l
    eraseLinks key ls (NodeMap.disconnectEach key l (fun _ => true) 0 conn.length conn m)

/-- `erase(key)`. -/
def erase (key : Int) (idx : HNSWIndex) : HNSWIndex :=
  match idx.vectors.find key with
  | none => idx
  | some node =>
    let m := (eraseLinks key (List.range (node.layer + 1).toNat) idx.vectors).erase key
    let entry := if idx.entryPoint = some key then rescan m.nodes
      else (idx.entryPoint, idx.entryPointLayer)
    saveToStorage env.nullKey { idx with vectors := m, entryPoint := entry.1, entryPointLayer := entry.2 }

/-- `clear()`: `m_config.vector_dimension` is kept. -/
def clear (idx : HNSWIndex) : HNSWIndex :=
  saveToStorage env.nullKey { idx with vectors := .empty, entryPoint := none, entryPointLayer := -1 }

/-- `set(key, value)`: `erase(key)`, then `insert(key, value)`. The index after the call, and the
exception `insert` raised, if any. -/
def set (key : Int) (vector : List Double) (draw : Nat) (idx : HNSWIndex) :
    HNSWIndex × Option HnswError :=
  match insert env key vector draw (erase env key idx) with
  | .ok idx' => (idx', none)
  | .error e => (erase env key idx, some e)

/-- `search_knn(query_vector, k, ef_search)`. The index is returned as `validate_vector_dimension`
may set the dimension through a `const_cast`. -/
def searchKnn (idx : HNSWIndex) (query : List Double) (k efSearch : Nat) :
    Except HnswError (HNSWIndex × List (Int × Double)) :=
  if idx.vectors.nodes.isEmpty || idx.entryPoint.isNone then .ok (idx, [])
  else if k = 0 then .ok (idx, [])
  else do
    let dim ← validateVectorDimension idx.config.vectorDimension query
    let idx := { idx with config.vectorDimension := dim }
    let ef := min (if efSearch = 0 then max idx.config.efSearch k else efSearch) idx.vectors.nodes.length
    let curr ← descend env idx.vectors idx.config.metric query idx.entryPointLayer.toNat
      idx.entryPointLayer.toNat idx.entryPoint
    let results ← searchLayerWithDistances env.fpu idx.vectors idx.config.metric query curr ef 0
    .ok (idx, results.take (min k idx.vectors.nodes.length))

/-- `search_radius(query_vector, max_distance)`: the nearest-first prefix of a `search_knn` over
all nodes whose distances are `<= max_distance`. -/
def searchRadius (idx : HNSWIndex) (query : List Double) (maxDistance : Double) :
    Except HnswError (HNSWIndex × List (Int × Double)) :=
  if idx.vectors.nodes.isEmpty || idx.entryPoint.isNone then .ok (idx, [])
  else if env.fpu.lt maxDistance Double.zero then .ok (idx, [])
  else do
    let dim ← validateVectorDimension idx.config.vectorDimension query
    let idx := { idx with config.vectorDimension := dim }
    let efLarge := min (idx.config.efSearch * 2 % 2 ^ 64)
      (max idx.config.efSearch idx.vectors.nodes.length)
    let (idx, results) ← searchKnn env idx query idx.vectors.nodes.length efLarge
    .ok (idx, results.takeWhile fun p => env.fpu.lt p.2 maxDistance || env.fpu.eq p.2 maxDistance)

/-- `count()`. -/
def count (idx : HNSWIndex) : Nat := idx.vectors.nodes.length

/-- `is_empty()`. -/
def isEmpty (idx : HNSWIndex) : Bool := idx.vectors.nodes.isEmpty

end

end RealmHnsw
