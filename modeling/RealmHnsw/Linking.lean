import RealmHnsw.Lengths
/-!
# What `insert` and `erase` do to the graph

The linking loop of `insert` works one layer at a time: at layer `lc` it connects the new node to
its chosen neighbours and prunes each of them, and it touches no list of another layer. The new
node's own list at `lc` is empty when the loop reaches `lc`, so it ends within the cap; each
pruned neighbour ends within the cap; every other list can only lose elements. `erase` only
removes elements, and drops the node.

These are the facts every invariant of `RealmHnsw.Runs` is derived from; none of them unfolds a
search.
-/

namespace RealmHnsw

namespace NodeMap

/-- Every list is within the cap of its layer. -/
def Capped (m : NodeMap) (cfg : Config) : Prop := ∀ x l, (m.conns x l).length ≤ cfg.maxConn l

theorem insertOrAssign_conns (m : NodeMap) (n : Node) (x : Int) (l : Nat) :
    (m.insertOrAssign n).conns x l = if x = n.objKey then n.connections.getD l [] else m.conns x l := by
  rw [conns_eq, conns_eq, insertOrAssign_find]
  split <;> rfl

@[simp] theorem erase_conns (m : NodeMap) (k x : Int) (l : Nat) :
    (m.erase k).conns x l = if x = k then [] else m.conns x l := by
  rw [conns_eq, conns_eq, erase_find]
  split <;> rfl

theorem erase_shape (m : NodeMap) (k : Int) : (m.erase k).shape = m.shape.filter (·.1 ≠ k) := by
  simp only [shape, erase, List.filter_map]
  rfl

theorem insertOrAssign_shape (m : NodeMap) (n : Node) (h : n.objKey ∉ m.keys) :
    (m.insertOrAssign n).shape = m.shape ++ [(n.objKey, n.vector, n.layer)] := by
  simp only [shape]
  unfold insertOrAssign
  split
  · contradiction
  · simp

/-- What `connect_nodes` adds to a list: at most one key. -/
theorem connectNodes_length_le (m : NodeMap) (a b x : Int) (layer l : Nat) :
    ((m.connectNodes a b layer).conns x l).length ≤ (m.conns x l).length + 1 := by
  rw [connectNodes_conns]
  split
  · by_cases hb : x = b <;> by_cases ha : x = a
    · rw [if_pos hb, if_pos ha, ← ha, ← hb, pushUnique_of_mem (mem_pushUnique.2 (.inr rfl))]
      exact length_pushUnique_le _ _
    · rw [if_pos hb, if_neg ha]; exact length_pushUnique_le _ _
    · rw [if_neg hb, if_pos ha]; exact length_pushUnique_le _ _
    · rw [if_neg hb, if_neg ha]; exact Nat.le_succ _
  · exact Nat.le_succ _

end NodeMap

/-! ## The connect loop -/

section Connect

variable (key : Int) (lc : Nat)

theorem connectAll_shape :
    ∀ (nbs : List Int) (m : NodeMap), (nbs.foldl (fun m nb => m.connectNodes key nb lc) m).shape = m.shape
  | [], _ => rfl
  | nb :: nbs, m => by rw [List.foldl_cons, connectAll_shape nbs, NodeMap.connectNodes_shape]

/-- The loop only writes the lists of the new node and of its neighbours at `lc`. -/
theorem connectAll_conns_of_not_mem {x : Int} {l : Nat} :
    ∀ {nbs : List Int}, (x ≠ key ∧ x ∉ nbs) ∨ l ≠ lc → ∀ m : NodeMap,
      (nbs.foldl (fun m nb => m.connectNodes key nb lc) m).conns x l = m.conns x l
  | [], _, _ => rfl
  | nb :: nbs, hx, m => by
    have hx' : (x ≠ key ∧ x ∉ nbs) ∨ l ≠ lc := by
      rcases hx with ⟨h1, h2⟩ | h
      · exact .inl ⟨h1, fun h => h2 (List.mem_cons_of_mem _ h)⟩
      · exact .inr h
    rw [List.foldl_cons, connectAll_conns_of_not_mem hx', NodeMap.connectNodes_conns]
    split
    · rename_i hc
      rcases hx with ⟨h1, h2⟩ | h
      · rw [if_neg (fun h => h2 (List.mem_cons.2 (.inl h))), if_neg h1]; rfl
      · exact absurd hc.2.2 h
    · rfl

theorem connectAll_length_le (x : Int) (l : Nat) :
    ∀ (nbs : List Int) (m : NodeMap),
      ((nbs.foldl (fun m nb => m.connectNodes key nb lc) m).conns x l).length ≤
        (m.conns x l).length + nbs.length
  | [], _ => by simp
  | nb :: nbs, m => by
    have := connectAll_length_le x l nbs (m.connectNodes key nb lc)
    have := NodeMap.connectNodes_length_le m key nb x lc l
    simp only [List.foldl_cons, List.length_cons]
    omega

end Connect

/-! ## The prune loop -/

section PruneAll

variable {fpu : Fpu} {cfg : Config} {lc : Nat}

theorem pruneAll_shape :
    ∀ {nbs : List Int} {m m' : NodeMap},
      nbs.foldlM (fun m nb => pruneConnections fpu cfg m nb lc) m = .ok m' → m'.shape = m.shape
  | [], _, _, h => by cases h; rfl
  | nb :: nbs, m, m', h => by
    rw [List.foldlM_cons] at h
    obtain ⟨m1, h1, h2⟩ := bind_eq_ok h
    rw [pruneAll_shape h2, pruneConnections_shape h1]

theorem pruneAll_conns_other {x : Int} {l : Nat} (hl : l ≠ lc) :
    ∀ {nbs : List Int} {m m' : NodeMap},
      nbs.foldlM (fun m nb => pruneConnections fpu cfg m nb lc) m = .ok m' → m'.conns x l = m.conns x l
  | [], _, _, h => by cases h; rfl
  | nb :: nbs, m, m', h => by
    rw [List.foldlM_cons] at h
    obtain ⟨m1, h1, h2⟩ := bind_eq_ok h
    rw [pruneAll_conns_other hl h2, pruneConnections_conns_other h1 x l hl]

/-- A list the loop does not prune only loses elements. -/
theorem pruneAll_sublist {x : Int} {l : Nat} :
    ∀ {nbs : List Int}, x ∉ nbs ∨ l ≠ lc → ∀ {m m' : NodeMap},
      nbs.foldlM (fun m nb => pruneConnections fpu cfg m nb lc) m = .ok m' →
        (m'.conns x l).Sublist (m.conns x l)
  | [], _, _, _, h => by cases h; exact .refl _
  | nb :: nbs, hx, m, m', h => by
    rw [List.foldlM_cons] at h
    obtain ⟨m1, h1, h2⟩ := bind_eq_ok h
    have hx' : x ∉ nbs ∨ l ≠ lc := hx.imp (fun h' h => h' (List.mem_cons_of_mem _ h)) id
    have hnb : x ≠ nb ∨ l ≠ lc := hx.imp (fun h' h => h' (List.mem_cons.2 (.inl h))) id
    exact (pruneAll_sublist hx' h2).trans (pruneConnections_sublist h1 x l hnb)

/-- A pruned list ends within its cap. -/
theorem pruneAll_capped {x : Int} :
    ∀ {nbs : List Int}, x ∈ nbs → ∀ {m m' : NodeMap},
      nbs.foldlM (fun m nb => pruneConnections fpu cfg m nb lc) m = .ok m' →
        (m'.conns x lc).length ≤ cfg.maxConn lc
  | nb :: nbs, hx, m, m', h => by
    rw [List.foldlM_cons] at h
    obtain ⟨m1, h1, h2⟩ := bind_eq_ok h
    by_cases hr : x ∈ nbs
    · exact pruneAll_capped hr h2
    · have hxn : x = nb := by simpa [hr] using hx
      subst hxn
      exact ((pruneAll_sublist (.inl hr) h2).length_le).trans (pruneConnections_length h1)

theorem pruneAll_ok {d : Nat} :
    ∀ (nbs : List Int) {m : NodeMap}, m.AllDim d →
      ∃ m', nbs.foldlM (fun m nb => pruneConnections fpu cfg m nb lc) m = .ok m'
  | [], m, _ => ⟨m, rfl⟩
  | nb :: nbs, m, hm => by
    obtain ⟨m1, h1⟩ : ∃ m', pruneConnections fpu cfg m nb lc = .ok m' := pruneConnections_ok hm nb lc
    rw [List.foldlM_cons, h1, ok_bind]
    exact pruneAll_ok nbs (hm.of_shape (pruneConnections_shape h1))

end PruneAll

/-! ## One layer, and the whole loop -/

section Link

variable {env : Env} {cfg : Config} {key : Int} {vector : List Double}

/-- What one layer of the loop did: it searched, chose at most the cap of neighbours, connected
the new node to them and pruned each. -/
theorem linkLayer_cases {m m' : NodeMap} {curr c : Option Int} {lc : Nat}
    (h : linkLayer env cfg key vector m curr lc = .ok (m', c)) :
    ∃ candidates nbs,
      searchLayerWithDistances env.fpu m cfg.metric vector curr cfg.efConstruction lc = .ok candidates ∧
      chooseNeighbors env cfg vector m candidates lc = .ok nbs ∧
      nbs.length ≤ cfg.maxConn lc ∧
      nbs.foldlM (fun m nb => pruneConnections env.fpu cfg m nb lc)
        (nbs.foldl (fun m nb => m.connectNodes key nb lc) m) = .ok m' ∧
      c = (candidates.head?.map (·.1)).or curr := by
  obtain ⟨candidates, hc, h⟩ := bind_eq_ok h
  obtain ⟨nbs, hn, h⟩ := bind_eq_ok h
  obtain ⟨m1, h1, h⟩ := bind_eq_ok h
  cases h
  refine ⟨candidates, nbs, hc, hn, ?_, h1, rfl⟩
  unfold chooseNeighbors at hn
  split at hn
  · cases hn; exact selectNeighborsSimple_length _ _
  · exact selectNeighborsHeuristic_length _ _ _ _ hn

theorem linkLayer_shape {m m' : NodeMap} {curr c : Option Int} {lc : Nat}
    (h : linkLayer env cfg key vector m curr lc = .ok (m', c)) : m'.shape = m.shape := by
  obtain ⟨-, nbs, -, -, -, hp, -⟩ := linkLayer_cases h
  rw [pruneAll_shape hp, connectAll_shape]

/-- One layer of the loop leaves the lists of every other layer as they were. -/
theorem linkLayer_conns_other {m m' : NodeMap} {curr c : Option Int} {lc : Nat}
    (h : linkLayer env cfg key vector m curr lc = .ok (m', c)) (x : Int) {l : Nat} (hl : l ≠ lc) :
    m'.conns x l = m.conns x l := by
  obtain ⟨-, nbs, -, -, -, hp, -⟩ := linkLayer_cases h
  rw [pruneAll_conns_other hl hp, connectAll_conns_of_not_mem key lc (.inr hl)]

/-- One layer keeps every list within its cap, when the new node's list there starts empty. -/
theorem linkLayer_capped {m m' : NodeMap} {curr c : Option Int} {lc : Nat}
    (h : linkLayer env cfg key vector m curr lc = .ok (m', c)) (hm : m.Capped cfg)
    (hk : m.conns key lc = []) : m'.Capped cfg := by
  obtain ⟨-, nbs, -, -, hlen, hp, -⟩ := linkLayer_cases h
  intro x l
  by_cases hx : x ∈ nbs ∧ l = lc
  · obtain ⟨hx, rfl⟩ := hx
    exact pruneAll_capped hx hp
  · refine (pruneAll_sublist (by tauto) hp).length_le.trans ?_
    by_cases hkx : x = key ∧ l = lc
    · obtain ⟨rfl, rfl⟩ := hkx
      have := connectAll_length_le x l x l nbs m
      rw [hk, List.length_nil] at this
      omega
    · rw [connectAll_conns_of_not_mem key lc (by tauto)]
      exact hm x l

theorem linkLayer_ok {m : NodeMap} (hm : m.AllDim vector.length) (curr : Option Int) (lc : Nat) :
    ∃ r, linkLayer env cfg key vector m curr lc = .ok r := by
  refine bind_ok (searchLayerWithDistances_ok hm _ _ _) fun candidates => bind_ok ?_ fun nbs => ?_
  · unfold chooseNeighbors
    split
    · exact ⟨_, rfl⟩
    · exact selectNeighborsHeuristic_ok hm _ _ _ _
  · have hm' := hm.of_shape (connectAll_shape key lc nbs m)
    exact bind_ok (pruneAll_ok nbs hm') fun _ => ⟨_, rfl⟩

theorem linkLayers_shape :
    ∀ {n : Nat} {m m' : NodeMap} {curr c : Option Int},
      linkLayers env cfg key vector n m curr = .ok (m', c) → m'.shape = m.shape
  | 0, _, _, _, _, h => by cases h; rfl
  | n + 1, m, m', curr, c, h => by
    obtain ⟨⟨m1, c1⟩, h1, h2⟩ := bind_eq_ok h
    rw [linkLayers_shape h2, linkLayer_shape h1]

/-- The loop keeps every list within its cap, when the new node's lists start empty. -/
theorem linkLayers_capped :
    ∀ {n : Nat} {m m' : NodeMap} {curr c : Option Int},
      linkLayers env cfg key vector n m curr = .ok (m', c) → m.Capped cfg →
        (∀ l < n, m.conns key l = []) → m'.Capped cfg
  | 0, _, _, _, _, h, hm, _ => by cases h; exact hm
  | n + 1, m, m', curr, c, h, hm, hk => by
    obtain ⟨⟨m1, c1⟩, h1, h2⟩ := bind_eq_ok h
    refine linkLayers_capped h2 (linkLayer_capped h1 hm (hk n (Nat.lt_succ_self n))) fun l hl => ?_
    rw [linkLayer_conns_other h1 key (Nat.ne_of_lt hl)]
    exact hk l (Nat.lt_succ_of_lt hl)

theorem linkLayers_ok :
    ∀ (n : Nat) {m : NodeMap}, m.AllDim vector.length → ∀ curr : Option Int,
      ∃ r, linkLayers env cfg key vector n m curr = .ok r
  | 0, m, _, curr => ⟨(m, curr), rfl⟩
  | n + 1, m, hm, curr => by
    obtain ⟨⟨m1, c1⟩, h1⟩ : ∃ r, linkLayer env cfg key vector m curr n = .ok r := linkLayer_ok hm curr n
    rw [linkLayers, h1, ok_bind]
    exact linkLayers_ok n (hm.of_shape (linkLayer_shape h1)) c1

end Link

/-! ## `insert` -/

/-- What an `insert` that returned did: nothing, for an empty vector; or it fixed the dimension,
and stored the new node as the entry point of an empty map, or linked it into the graph from the
node the descent reached. -/
theorem insert_cases {env : Env} {key : Int} {vector : List Double} {draw : Nat}
    {idx idx' : HNSWIndex} (h : insert env key vector draw idx = .ok idx') :
    (vector = [] ∧ idx' = idx) ∨
    ∃ dim, vector ≠ [] ∧ validateVectorDimension idx.config.vectorDimension vector = .ok dim ∧
      ((idx.vectors.nodes = [] ∧ idx' = saveToStorage env.nullKey { idx with
          config := { idx.config with vectorDimension := dim }
          vectors := idx.vectors.insertOrAssign (newNode key vector (selectLayer draw))
          entryPoint := some key
          entryPointLayer := selectLayer draw }) ∨
       (idx.vectors.nodes ≠ [] ∧ ∃ curr m c,
          descend env idx.vectors idx.config.metric vector idx.entryPointLayer.toNat
            (idx.entryPointLayer - selectLayer draw).toNat idx.entryPoint = .ok curr ∧
          linkLayers env { idx.config with vectorDimension := dim } key vector (selectLayer draw + 1)
            (idx.vectors.insertOrAssign (newNode key vector (selectLayer draw))) curr = .ok (m, c) ∧
          idx' = saveToStorage env.nullKey { idx with
            config := { idx.config with vectorDimension := dim }
            vectors := m
            entryPoint := if (selectLayer draw : Int) > idx.entryPointLayer then some key
              else idx.entryPoint
            entryPointLayer := if (selectLayer draw : Int) > idx.entryPointLayer then selectLayer draw
              else idx.entryPointLayer })) := by
  unfold insert at h
  split at h
  · cases h
    exact .inl ⟨List.isEmpty_iff.1 ‹_›, rfl⟩
  · obtain ⟨dim, hv, h⟩ := bind_eq_ok h
    refine .inr ⟨dim, fun h' => by simp_all, hv, ?_⟩
    split at h
    · cases h
      exact .inl ⟨List.isEmpty_iff.1 ‹_›, rfl⟩
    · obtain ⟨curr, hd, h⟩ := bind_eq_ok h
      obtain ⟨⟨m, c⟩, hl, h⟩ := bind_eq_ok h
      cases h
      exact .inr ⟨fun h' => by simp_all, curr, m, c, hd, hl, rfl⟩

/-! ## `erase` -/

theorem eraseLinks_shape (key : Int) :
    ∀ (ls : List Nat) (m : NodeMap), (eraseLinks key ls m).shape = m.shape
  | [], _ => rfl
  | l :: ls, m => by rw [eraseLinks, eraseLinks_shape key ls, NodeMap.disconnectEach_shape]

theorem shrinks_eraseLinks (key : Int) :
    ∀ (ls : List Nat) (m : NodeMap), NodeMap.Shrinks m (eraseLinks key ls m)
  | [], _ => fun _ _ => .refl _
  | _ :: ls, _ => (NodeMap.shrinks_disconnectEach _ _ _ _ _ _ _).trans (shrinks_eraseLinks key ls _)

/-- The entry-point rescan from any start: it keeps the start when no node has a greater layer,
and otherwise ends on the first node of greatest layer. -/
theorem rescan_foldl :
    ∀ (nodes : List Node) (acc : Option Int × Int),
      (nodes.foldl (fun acc n => if n.layer > acc.2 then (some n.objKey, n.layer) else acc) acc = acc ∧
        ∀ n ∈ nodes, n.layer ≤ acc.2) ∨
      ∃ n ∈ nodes, nodes.foldl (fun acc n => if n.layer > acc.2 then (some n.objKey, n.layer) else acc)
          acc = (some n.objKey, n.layer) ∧ acc.2 < n.layer ∧ ∀ n' ∈ nodes, n'.layer ≤ n.layer
  | [], acc => .inl ⟨rfl, by simp⟩
  | x :: xs, acc => by
    rw [List.foldl_cons]
    split
    · rename_i hx
      rcases rescan_foldl xs (some x.objKey, x.layer) with ⟨he, hle⟩ | ⟨n, hn, he, hlt, hle⟩
      · exact .inr ⟨x, List.mem_cons_self _ _, he, hx, by simpa using hle⟩
      · refine .inr ⟨n, List.mem_cons_of_mem _ hn, he, by simp at hlt; omega, ?_⟩
        simp only [List.mem_cons, forall_eq_or_imp]
        exact ⟨by simp at hlt; omega, hle⟩
    · rename_i hx
      rcases rescan_foldl xs acc with ⟨he, hle⟩ | ⟨n, hn, he, hlt, hle⟩
      · exact .inl ⟨he, by simp only [List.mem_cons, forall_eq_or_imp]; exact ⟨by omega, hle⟩⟩
      · refine .inr ⟨n, List.mem_cons_of_mem _ hn, he, hlt, ?_⟩
        simp only [List.mem_cons, forall_eq_or_imp]
        exact ⟨by omega, hle⟩

/-- Over nodes of non-negative layers, the rescan finds nothing only in an empty map, and
otherwise a node of greatest layer. -/
theorem rescan_spec {nodes : List Node} (h : ∀ n ∈ nodes, 0 ≤ n.layer) :
    (nodes = [] ∧ rescan nodes = (none, -1)) ∨
    ∃ n ∈ nodes, rescan nodes = (some n.objKey, n.layer) ∧ ∀ n' ∈ nodes, n'.layer ≤ n.layer := by
  rcases rescan_foldl nodes (none, -1) with ⟨he, hle⟩ | ⟨n, hn, he, -, hle⟩
  · refine .inl ⟨List.eq_nil_iff_forall_not_mem.2 fun n hn => ?_, he⟩
    have := h n hn
    have := hle n hn
    simp at this
    omega
  · exact .inr ⟨n, hn, he, hle⟩

end RealmHnsw
