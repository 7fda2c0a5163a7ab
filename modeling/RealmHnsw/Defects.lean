import RealmHnsw.Guarantees
import RealmHnsw.Ieee
/-!
# Runs that break the layered graph

`insert` links the new node from its own drawn layer down to 0, not from the smaller of that layer
and the entry layer. Inserting a node one layer above the only node of the index therefore grows
the old node's lists past its top layer (`twoInserts`), whatever the floating-point unit does.
From that state: `save_to_storage` writes each node's lists up to its layer only, so reopening
drops the link; and `erase` walks layers `0..layer` of the erased node only, so erasing the old
node leaves the new one pointing at it.

`set` erases before `insert` validates, so a `set` that throws `DimensionMismatch` has already
removed its key.

`prune_connections` disconnects the neighbours it drops from inside a range-for over the list it
erases from. The neighbour after a dropped one slides into the slot the loop has read and is never
disconnected, so it keeps a link the pruned node no longer has
(`pruneConnections_keeps_shifted`); inserting a fourth key into a three-node index does this.
-/

namespace RealmHnsw

/-! ## A search from a node with no neighbours -/

section Isolated

variable {fpu : Fpu} {m : NodeMap} {metric : DistanceMetric} {query : List Double} {layer : Nat}

theorem searchLoop_done (ef : Nat) (st : SearchState) (hc : st.candidates = []) :
    ∀ fuel, searchLoop fpu m metric query ef layer fuel st = .ok st
  | 0 => rfl
  | _ + 1 => by simp [searchLoop, hc]

/-- A search whose entry has no neighbours at the layer finds the entry alone. -/
theorem searchLayerWithDistances_isolated {ep : Int} {n : Node} {d : Double}
    (hn : m.find ep = some n) (hd : computeDistance fpu metric query n.vector = .ok d)
    (hiso : m.conns ep layer = []) (ef : Nat) :
    searchLayerWithDistances fpu m metric query (some ep) ef layer = .ok [(ep, d)] := by
  have hmem := (NodeMap.find_eq_some.1 hn).1
  obtain ⟨k, hk⟩ : ∃ k, m.nodes.length = k + 1 :=
    Nat.exists_eq_succ_of_ne_zero (List.length_pos_of_mem hmem).ne'
  have hl : n.connections[layer]?.getD [] = [] := by simpa [NodeMap.conns, hn] using hiso
  have hne : m.nodes.isEmpty = false := List.isEmpty_eq_false.2 (List.ne_nil_of_mem hmem)
  simp only [searchLayerWithDistances, hne, hn, hd, ok_bind, hk, searchLoop, List.head?_cons,
    Heap.pop_singleton, Bool.false_eq_true, if_false]
  split
  · simp [drain]
  · split
    · simp [hl, visitNeighbors, searchLoop_done, drain]
    · simp [searchLoop_done, drain]

/-- The heuristic keeps a single candidate with no neighbours when it may keep one. -/
theorem selectNeighborsHeuristic_single {a : Int} {d : Double} (hiso : m.conns a layer = [])
    {M : Nat} (hM : 1 ≤ M) (extend : Bool) :
    selectNeighborsHeuristic fpu m metric query [(a, d)] M layer extend = .ok [a] := by
  have hws : workingSet fpu m metric query [(a, d)] layer extend = .ok [(a, d)] := by
    unfold workingSet
    split
    · have : extendCandidates fpu m metric query layer [(a, d)] ([(a, d)], [a]) = .ok ([(a, d)], [a]) := by
        unfold extendCandidates
        split
        · rename_i n hn
          have hl : n.connections[layer]?.getD [] = [] := by simpa [NodeMap.conns, hn] using hiso
          split <;> simp [hl, extendFrom, extendCandidates]
        · rfl
      simp only [List.map_cons, List.map_nil, this]
      rfl
    · rfl
  have hkeep : keepCandidate fpu m metric (a, d) [] = .ok true := by
    unfold keepCandidate
    split <;> rfl
  rw [selectNeighborsHeuristic, hws, ok_bind, selectDiverse, if_neg (by simp; omega), hkeep, ok_bind]
  rfl

end Isolated

section Link

variable {env : Env} {cfg : Config} {key : Int} {vector : List Double} {m : NodeMap}

/-- One layer of `insert`'s loop from a node with no neighbours at the layer: the new node is
linked to it alone. -/
theorem linkLayer_isolated {a : Int} {n : Node} {d : Double} {lc : Nat} (hn : m.find a = some n)
    (hd : computeDistance env.fpu cfg.metric vector n.vector = .ok d) (hiso : m.conns a lc = [])
    (hM : 1 ≤ cfg.maxConn lc)
    (hcap : ((m.connectNodes key a lc).conns a lc).length ≤ cfg.maxConn lc) :
    linkLayer env cfg key vector m (some a) lc = .ok (m.connectNodes key a lc, some a) := by
  have hch : chooseNeighbors env cfg vector m [(a, d)] lc = .ok [a] := by
    unfold chooseNeighbors
    split
    · obtain ⟨k, hk⟩ := Nat.exists_eq_add_of_le' hM
      simp [selectNeighborsSimple, hk]
    · exact selectNeighborsHeuristic_single hiso hM true
  simp only [linkLayer, searchLayerWithDistances_isolated hn hd hiso, ok_bind, hch, List.foldl_cons,
    List.foldl_nil, List.foldlM_cons, List.foldlM_nil, pruneConnections_of_le hcap]
  rfl

end Link

/-! ## Two inserts -/

/-- Two inserts into a fresh index, the second node drawn one layer above the first: the first
node, of layer 0, ends up holding the second at layers 0 and 1, and the second holds the first at
layer 1. The floating-point unit does not matter: each search starts from a node with no
neighbours at its layer. -/
theorem twoInserts (env : Env) {cfg : Config} (hc : cfg.Fits) (hD : cfg.vectorDimension = 0)
    (hM : 1 ≤ cfg.M) (hM0 : 1 ≤ cfg.normalize.M0) {a b : Int} (x : Double) (hab : a ≠ b)
    (ha : a ≠ env.nullKey) (hb : b ≠ env.nullKey) :
    ∃ idx, Reachable env cfg idx ∧ (idx.vectors.find a).map (·.layer) = some 0 ∧
      idx.vectors.conns a 0 = [b] ∧ idx.vectors.conns a 1 = [b] ∧ idx.vectors.conns b 1 = [a] := by
  let m1 := NodeMap.empty.insertOrAssign (newNode a [x] 0)
  let c1 : Config := { cfg.normalize with vectorDimension := 1 }
  let s1 := saveToStorage env.nullKey ⟨c1, .refs [], m1, some a, 0⟩
  have r1 : Reachable env cfg s1 := by
    refine .step (.insert a [x] 0) (.create hc)
      ⟨by simp [HNSWIndex.create, NodeMap.keys, NodeMap.empty], ha, by simp⟩ (Write.apply_insert_of ?_)
    simp [insert, HNSWIndex.create, validateVectorDimension, Config.normalize,
      hD, s1, m1, c1, selectLayer, NodeMap.empty]
  let m2 := m1.insertOrAssign (newNode b [x] 1)
  obtain ⟨d, hd⟩ : ∃ d, computeDistance env.fpu cfg.metric [x] [x] = .ok d := computeDistance_ok env.fpu rfl
  have hfa : m2.find a = some (newNode a [x] 0) := by simp [m2, m1, hab, newNode]
  have hfb : m2.find b = some (newNode b [x] 1) := by simp [m2, newNode]
  have hl1 : linkLayer env c1 b [x] m2 (some a) 1 = .ok (m2.connectNodes b a 1, some a) := by
    refine linkLayer_isolated hfa hd (by simp [NodeMap.conns, hfa, newNode]) hM ?_
    rw [NodeMap.connectNodes_conns]
    simpa [hfa, hfb, NodeMap.conns, newNode, pushUnique, hab, Config.maxConn, c1, Config.normalize] using hM
  let m3 := m2.connectNodes b a 1
  have hfa3 : m3.find a = some { newNode a [x] 0 with connections := [[], [b]] } := by
    simp [m3, NodeMap.connectNodes, hfa, hfb, growTo, pushUnique, hab, newNode]
  have hfb3 : m3.find b = some { newNode b [x] 1 with connections := [[], [a]] } := by
    simp [m3, NodeMap.connectNodes, hfa, hfb, growTo, pushUnique, Ne.symm hab, newNode]
  have hl0 : linkLayer env c1 b [x] m3 (some a) 0 = .ok (m3.connectNodes b a 0, some a) := by
    refine linkLayer_isolated hfa3 hd ?_ hM0 ?_
    · rw [NodeMap.connectNodes_conns]; simp [NodeMap.conns, hfa, newNode]
    · rw [NodeMap.connectNodes_conns]
      simpa [hfa3, hfb3, NodeMap.conns, newNode, pushUnique, hab, Config.maxConn, c1, Config.normalize] using hM0
  have h2 : insert env b [x] 1 s1 =
      .ok (saveToStorage env.nullKey ⟨c1, s1.array, m3.connectNodes b a 0, some b, 1⟩) := by
    have hlinks : linkLayers env { s1.config with vectorDimension := 1 } b [x] (selectLayer 1 + 1)
        (s1.vectors.insertOrAssign (newNode b [x] (selectLayer 1))) (some a) =
        .ok (m3.connectNodes b a 0, some a) := by
      simp only [linkLayers]
      rw [show linkLayer env { s1.config with vectorDimension := 1 } b [x]
        (s1.vectors.insertOrAssign (newNode b [x] (selectLayer 1))) (some a) 1 = _ from hl1, ok_bind]
      rw [show linkLayer env { s1.config with vectorDimension := 1 } b [x] m3 (some a) 0 = _ from hl0,
        ok_bind]
    have hv : validateVectorDimension s1.config.vectorDimension [x] = .ok 1 := rfl
    have hne : s1.vectors.nodes.isEmpty = false := rfl
    have hdesc : descend env s1.vectors s1.config.metric [x] s1.entryPointLayer.toNat
        (s1.entryPointLayer - ↑(selectLayer 1)).toNat s1.entryPoint = .ok (some a) := rfl
    simp only [insert, List.isEmpty_cons, Bool.false_eq_true, if_false, hv, ok_bind, hne,
      hdesc, hlinks]
    rfl
  have hka : b ∉ s1.vectors.keys := by
    simp [s1, m1, NodeMap.keys, NodeMap.insertOrAssign, NodeMap.empty, newNode, Ne.symm hab]
  refine ⟨_, .step (.insert b [x] 1) r1 ⟨hka, hb, by simp⟩ (Write.apply_insert_of h2), ?_, ?_, ?_, ?_⟩
  · rw [saveToStorage_vectors, NodeMap.find_layer_of_shape (NodeMap.connectNodes_shape _ _ _ _), hfa3]
    rfl
  all_goals
    rw [saveToStorage_vectors, NodeMap.connectNodes_conns]
    simp [NodeMap.conns_eq, hfa3, hfb3, newNode, pushUnique, hab, Ne.symm hab]

/-! ## Erasing and reopening -/

theorem eraseLinks_conns_of_not_mem (key x : Int) {l : Nat} :
    ∀ {ls : List Nat}, l ∉ ls → ∀ m : NodeMap, (eraseLinks key ls m).conns x l = m.conns x l
  | [], _, _ => rfl
  | l' :: ls, hl, m => by
    rw [eraseLinks, eraseLinks_conns_of_not_mem key x (fun h => hl (List.mem_cons_of_mem _ h)),
      NodeMap.disconnectEach_conns_other _ _ _ _ _ (fun h => hl (List.mem_cons.2 (.inl h)))]

/-- `erase` leaves every other node's lists above the erased node's layer as they were. -/
theorem erase_conns_above {env : Env} {key x : Int} {idx : HNSWIndex} {n : Node}
    (hn : idx.vectors.find key = some n) (hx : x ≠ key) {l : Nat} (hl : n.layer < l) :
    (erase env key idx).vectors.conns x l = idx.vectors.conns x l := by
  unfold erase
  rw [hn]
  simp only [saveToStorage_vectors, NodeMap.erase_conns, if_neg hx]
  exact eraseLinks_conns_of_not_mem key x (fun h => by rw [List.mem_range] at h; omega) _

/-- A persisted node holds no list above its layer. -/
theorem NodeMap.persisted_conns_above {m : NodeMap} {k : Int} {L : Int}
    (h : (m.find k).map (·.layer) = some L) {l : Nat} (hl : L < l) : m.persisted.conns k l = [] := by
  obtain ⟨n, hn, rfl⟩ := Option.map_eq_some'.1 h
  rw [conns_eq, persisted_find, hn]
  simp only [Option.map_some', Option.getD_some, Node.persisted, List.getD_eq_getElem?_getD,
    List.getElem?_map]
  rw [List.getElem?_eq_none (by rw [List.length_range]; omega)]
  rfl

/-! ## What the runs show -/

/-- A reachable index in which a node of layer 0 holds a list at layer 1: `insert` connected it
above its top layer. -/
theorem insert_links_above_node_layer (env : Env) {cfg : Config} (hc : cfg.Fits)
    (hD : cfg.vectorDimension = 0) (hM : 1 ≤ cfg.M) (hM0 : 1 ≤ cfg.normalize.M0) {a b : Int}
    (x : Double) (hab : a ≠ b) (ha : a ≠ env.nullKey) (hb : b ≠ env.nullKey) :
    ∃ idx, Reachable env cfg idx ∧ (idx.vectors.find a).map (·.layer) = some 0 ∧
      idx.vectors.conns a 1 = [b] := by
  obtain ⟨idx, h, hl, -, h1, -⟩ := twoInserts env hc hD hM hM0 x hab ha hb
  exact ⟨idx, h, hl, h1⟩

theorem insert_links_above_node_layer_default :
    ∃ idx, Reachable Env.sample (Config.default .euclidean) idx ∧
      (idx.vectors.find 1).map (·.layer) = some 0 ∧ idx.vectors.conns 1 1 = [2] :=
  insert_links_above_node_layer Env.sample (Config.default_fits _) rfl (by decide) (by decide)
    Double.one (by decide) (by decide) (by decide)

/-- A reachable index in which erasing a node leaves another pointing at it: the link above the
erased node's layer is never walked. -/
theorem erase_keeps_links_above_node_layer (env : Env) {cfg : Config} (hc : cfg.Fits)
    (hD : cfg.vectorDimension = 0) (hM : 1 ≤ cfg.M) (hM0 : 1 ≤ cfg.normalize.M0) {a b : Int}
    (x : Double) (hab : a ≠ b) (ha : a ≠ env.nullKey) (hb : b ≠ env.nullKey) :
    ∃ idx, Reachable env cfg idx ∧ a ∈ idx.vectors.keys ∧ a ∉ (erase env a idx).vectors.keys ∧
      (erase env a idx).vectors.conns b 1 = [a] := by
  obtain ⟨idx, h, hl, -, -, h1⟩ := twoInserts env hc hD hM hM0 x hab ha hb
  obtain ⟨n, hn, hn0⟩ := Option.map_eq_some'.1 hl
  refine ⟨idx, h, NodeMap.mem_keys.2 ⟨n, hn⟩, erase_not_mem env a idx, ?_⟩
  rw [erase_conns_above hn (Ne.symm hab) (by omega), h1]

theorem erase_keeps_links_above_node_layer_default :
    ∃ idx, Reachable Env.sample (Config.default .euclidean) idx ∧ 1 ∈ idx.vectors.keys ∧
      1 ∉ (erase Env.sample 1 idx).vectors.keys ∧ (erase Env.sample 1 idx).vectors.conns 2 1 = [1] :=
  erase_keeps_links_above_node_layer Env.sample (Config.default_fits _) rfl (by decide) (by decide)
    Double.one (by decide) (by decide) (by decide)

/-- Reopening a reachable index on its root does not give it back: a list a node held above its
layer is gone. -/
theorem reopen_drops_links_above_node_layer :
    ∃ idx, Reachable Env.sample (Config.default .euclidean) idx ∧ idx.vectors.conns 1 1 = [2] ∧
      ∃ idx', HNSWIndex.open (-1) idx.array (Config.default .euclidean) = .ok idx' ∧
        idx'.vectors.conns 1 1 = [] := by
  obtain ⟨idx, h, hl, -, h1, -⟩ := twoInserts Env.sample (Config.default_fits .euclidean) rfl
    (by decide) (by decide) Double.one (a := 1) (b := 2) (by decide) (by decide) (by decide)
  exact ⟨idx, h, h1, _, h.inv.open_eq, NodeMap.persisted_conns_above hl (by decide)⟩

/-- `set` erases before `insert` validates: when validation throws, the erase has been done and
saved. A lone `insert` throws before it changes anything. -/
theorem set_erases_before_validation (env : Env) (idx : HNSWIndex) {key : Int}
    {vector : List Double} (draw : Nat) (hv : vector ≠ []) (hD : idx.config.vectorDimension ≠ 0)
    (hne : vector.length ≠ idx.config.vectorDimension) :
    insert env key vector draw idx =
        .error (.dimensionMismatch idx.config.vectorDimension vector.length) ∧
      set env key vector draw idx =
        (erase env key idx, some (.dimensionMismatch idx.config.vectorDimension vector.length)) ∧
      key ∉ (set env key vector draw idx).1.vectors.keys := by
  have hval : ∀ c : Config, c.vectorDimension = idx.config.vectorDimension →
      validateVectorDimension c.vectorDimension vector =
        .error (.dimensionMismatch idx.config.vectorDimension vector.length) := fun c hc =>
    validateVectorDimension_eq_error.2 ⟨by rw [hc], hc ▸ hD, hc ▸ hne⟩
  have hins : ∀ i : HNSWIndex, i.config = idx.config →
      insert env key vector draw i = .error (.dimensionMismatch idx.config.vectorDimension vector.length) := by
    intro i hi
    unfold insert
    rw [if_neg (by simpa using hv), hval i.config (by rw [hi]), error_bind]
  have hset : set env key vector draw idx =
      (erase env key idx, some (.dimensionMismatch idx.config.vectorDimension vector.length)) := by
    unfold set
    rw [hins _ (erase_config env key idx)]
  exact ⟨hins idx rfl, hset, by rw [hset]; exact erase_not_mem env key idx⟩

theorem set_erases_before_validation_one :
    ∃ idx : HNSWIndex, (1 : Int) ∈ idx.vectors.keys ∧
      insert Env.sample 1 [Double.one, Double.one] 0 idx = .error (.dimensionMismatch 1 2) ∧
      set Env.sample 1 [Double.one, Double.one] 0 idx =
        (erase Env.sample 1 idx, some (.dimensionMismatch 1 2)) ∧
      (1 : Int) ∉ (set Env.sample 1 [Double.one, Double.one] 0 idx).1.vectors.keys :=
  ⟨⟨{ Config.default .euclidean with vectorDimension := 1 }, .refs [],
      NodeMap.empty.insertOrAssign (newNode 1 [Double.one] 0), some 1, 0⟩, by decide,
    set_erases_before_validation Env.sample _ 0 (by simp) (by decide) (by decide)⟩

/-! ## A prune that skips a neighbour -/

/-- `prune_connections` walks the old list of `key` with a range-for while `disconnect_nodes`
erases from that very list. When the first neighbour `y` is dropped, erasing it moves the second,
`z`, into the slot the loop has already read, and the loop never reaches `z`. Whatever the new
list is, `z`'s own list is left as it was: it still holds `key` even when the new list drops `z`. -/
theorem pruneConnections_keeps_shifted {fpu : Fpu} {cfg : Config} {m m' : NodeMap} {key : Int}
    {layer : Nat} {y z w : Int} {rest : List Int} (h : pruneConnections fpu cfg m key layer = .ok m')
    (hold : m.conns key layer = y :: z :: w :: rest) (hnd : (y :: z :: w :: rest).Nodup)
    (hy : y ∈ m.keys) (hyS : y ∉ m'.conns key layer) (hzk : z ≠ key) :
    m'.conns z layer = m.conns z layer := by
  rcases pruneConnections_cases h with ⟨rfl, -⟩ | ⟨nn, -, -, long, hk, rfl⟩
  · rfl
  rw [conns_cut_self long hk] at hyS
  rw [set_conns _ _ _ _ _ _ (long.disconnectEach _ _ _ _ _ _), if_neg fun h => hzk h.1]
  have hyz : y ≠ z := fun h => (List.nodup_cons.1 hnd).1 (h ▸ List.mem_cons_self _ _)
  have hzt : z ∉ w :: rest := (List.nodup_cons.1 (List.nodup_cons.1 hnd).2).1
  -- the first pass reads `y`, drops it, and shifts `z` into slot `0`
  have hlive : (m.disconnectNodes key y layer).conns key layer = z :: w :: rest := by
    obtain ⟨n, hn⟩ := NodeMap.mem_keys.1 hy
    rw [NodeMap.disconnectNodes_conns_self, if_pos ⟨hk, by simp [hn]⟩, hold, removeAll,
      List.filter_cons_of_neg (by simp)]
    exact List.filter_eq_self.2 fun a ha =>
      decide_eq_true fun h : a = y => (List.nodup_cons.1 hnd).1 (h ▸ ha)
  have hz : (m.disconnectNodes key y layer).conns z layer = m.conns z layer := by
    rw [NodeMap.disconnectNodes_conns, if_neg hyz.symm, if_neg hzk]
    split <;> rfl
  have hbuf : z ∉ ((z :: w :: rest) ++ (y :: z :: w :: rest).drop (rest.length + 2)).drop 1 := by
    have hstale : (y :: z :: w :: rest).drop (rest.length + 2) = (w :: rest).drop rest.length := rfl
    rw [List.cons_append, List.drop_one, List.tail_cons, List.mem_append, not_or, hstale]
    exact ⟨hzt, fun h => hzt ((List.drop_sublist _ _).subset h)⟩
  rw [hold, List.length_cons, NodeMap.disconnectEach]
  simp only [List.getD_cons_zero, decide_eq_true hyS, if_true, hlive, List.length_cons]
  rw [NodeMap.disconnectEach_conns_behind key z layer _ hzk 1 _ _ (w :: rest) _ le_rfl
    (by simp only [List.length_append, List.length_cons, List.length_drop]; omega) hbuf hlive hzt
    (by simp only [List.length_append, List.length_cons, List.length_drop]; omega), hz]

set_option maxRecDepth 100000 in
/-- Keys 1, 2 and 3 at `0.0`, `20.0` and `25.0`, with `M0 = 2`: node 1 holds `[2, 3]` and node 3
holds `1`. Inserting key 4 at `9.0` links it to 1 and 2, and the prune of node 1 keeps `[4]`: it
drops 2 and 3, but erasing 2 moves 3 into the slot already read, so 3 still holds 1. -/
theorem pruneConnections_keeps_shifted_insert :
    ∃ idx, Reachable Env.integral { Config.default .euclidean with M0 := 2 } idx ∧
      idx.vectors.conns 1 0 = [2, 3] ∧ idx.vectors.conns 3 0 = [2, 1] ∧ ∃ idx',
      insert Env.integral 4 [Double.ofIntegral false 9] 0 idx = .ok idx' ∧
      pruneConnections Fpu.integral idx.config (((idx.vectors.insertOrAssign
        (newNode 4 [Double.ofIntegral false 9] 0)).connectNodes 4 1 0).connectNodes 4 2 0) 1 0 =
        .ok idx'.vectors ∧
      idx'.vectors.conns 1 0 = [4] ∧ idx'.vectors.conns 3 0 = [2, 1] := by
  have r3 : Reachable Env.integral { Config.default .euclidean with M0 := 2 }
      (saveToStorage (-1) ⟨{ (Config.default .euclidean).normalize with M0 := 2, vectorDimension := 1 },
        .refs [], ((NodeMap.empty.insertOrAssign ⟨1, [Double.ofIntegral false 0], 0, [[2, 3]]⟩).insertOrAssign
          ⟨2, [Double.ofIntegral false 20], 0, [[1, 3]]⟩).insertOrAssign
          ⟨3, [Double.ofIntegral false 25], 0, [[2, 1]]⟩, some 1, 0⟩) :=
    .step (.insert 3 [Double.ofIntegral false 25] 0)
      (.step (.insert 2 [Double.ofIntegral false 20] 0)
        (.step (.insert 1 [Double.ofIntegral false 0] 0) (.create (by decide))
          ⟨by decide, by decide, by decide⟩ rfl)
        ⟨by decide, by decide, by decide⟩ rfl)
      ⟨by decide, by decide, by decide⟩ rfl
  -- the prune of node 1 inside the insert of key 4, on the map with 4 linked to 1 and 2
  have hprune : pruneConnections Fpu.integral
      { (Config.default .euclidean).normalize with M0 := 2, vectorDimension := 1 }
      (NodeMap.empty.insertOrAssign ⟨1, [Double.ofIntegral false 0], 0, [[2, 3]]⟩
        |>.insertOrAssign ⟨2, [Double.ofIntegral false 20], 0, [[1, 3]]⟩
        |>.insertOrAssign ⟨3, [Double.ofIntegral false 25], 0, [[2, 1]]⟩
        |>.insertOrAssign (newNode 4 [Double.ofIntegral false 9] 0)
        |>.connectNodes 4 1 0 |>.connectNodes 4 2 0) 1 0 =
      .ok ((((NodeMap.empty.insertOrAssign ⟨1, [Double.ofIntegral false 0], 0, [[4]]⟩).insertOrAssign
          ⟨2, [Double.ofIntegral false 20], 0, [[3, 4]]⟩).insertOrAssign
          ⟨3, [Double.ofIntegral false 25], 0, [[2, 1]]⟩).insertOrAssign
          ⟨4, [Double.ofIntegral false 9], 0, [[1, 2]]⟩) := rfl
  exact ⟨_, r3, by decide, by decide, _, rfl, hprune, by decide,
    (pruneConnections_keeps_shifted hprune (show _ = [2, 3, 4] by decide) (by decide) (by decide)
      (by decide) (by decide)).trans (by decide)⟩

end RealmHnsw
