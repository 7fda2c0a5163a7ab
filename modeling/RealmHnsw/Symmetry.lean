import RealmHnsw.SelfLinks
/-!
# Symmetry under inserts, while no list is cut

`connect_nodes` adds a link together with its reverse. The only step of `insert` that can leave a
link one way is `prune_connections`, which runs only on a list longer than its cap, and whose
range-for then skips a neighbour it drops (`verify_aborts_on_reachable` in `RealmHnsw.Verify`).
In an insert-only run every list is simple (`NodeMap.SimpleLists`), so a list holds at most
`N - 1` keys in an index of `N` nodes: with at most `min(M, M0) + 1` nodes, nothing is cut.

`undirected_of_small_insert_run`: every insert-only run of at most `min(M, M0) + 1` nodes keeps
every link two-way, at every layer, so that `verify` passes on it whenever `max_conn + 2` fits a
`size_t`.
-/

namespace RealmHnsw

namespace NodeMap

/-- Every link has its reverse: a node lists `y` at a layer exactly when `y` lists it there. -/
def Undirected (m : NodeMap) : Prop := ∀ x y l, y ∈ m.conns x l → x ∈ m.conns y l

theorem undirected_empty : NodeMap.empty.Undirected := fun _ _ _ h => by
  simp [conns, find, NodeMap.empty] at h

/-- `verify` walks only some of the layers and neighbours that `Undirected` covers. -/
theorem Undirected.symmetric {m : NodeMap} (h : m.Undirected) : m.Symmetric :=
  fun x y l _ hy _ => h x y l hy

theorem Undirected.insertOrAssign_newNode {m : NodeMap} (h : m.Undirected) (hc : m.Closed)
    {key : Int} (hk : key ∉ m.keys) (vector : List Double) (L : Nat) :
    (m.insertOrAssign (newNode key vector L)).Undirected := by
  intro x y l hy
  rw [conns_insertOrAssign_newNode] at hy ⊢
  split at hy
  · cases hy
  · rw [if_neg fun he : y = key => hk (he ▸ hc x l y hy)]
    exact h x y l hy

/-- Linking a present node to present neighbours adds each link with its reverse. -/
theorem Undirected.connectAll {m : NodeMap} (h : m.Undirected) {key : Int} {lc : Nat}
    {nbs : List Int} (hk : key ∈ m.keys) (hn : ∀ nb ∈ nbs, nb ∈ m.keys) :
    (nbs.foldl (fun m nb => m.connectNodes key nb lc) m).Undirected := by
  intro x y l hy
  rw [mem_connectAll_conns hk hn] at hy ⊢
  rcases hy with hy | ⟨rfl, ⟨rfl, hy⟩ | ⟨hx, rfl⟩⟩
  · exact .inl (h x y l hy)
  · exact .inr ⟨rfl, .inr ⟨hy, rfl⟩⟩
  · exact .inr ⟨rfl, .inl ⟨rfl, hx⟩⟩

end NodeMap

section Link

variable {env : Env} {cfg : Config} {key : Int} {vector : List Double}

/-- A layer of the linking loop, on simple lists of at most `max_conn + 1` nodes, prunes nothing
and so keeps every link two-way. -/
theorem SelfFree.undirected_linkLayer {m m' : NodeMap} {curr c : Option Int} {lc : Nat}
    (hp : SelfFree key m curr lc) (hu : m.Undirected) (hnd : m.NodupLists)
    (hsmall : m.keys.length ≤ cfg.maxConn lc + 1)
    (h : linkLayer env cfg key vector m curr lc = .ok (m', c)) : m'.Undirected := by
  obtain ⟨cands, nbs, hs, hch, -, hprune, -⟩ := linkLayer_cases h
  have hn := hp.chosen hs hch
  have hkn := fun nb h => (hn nb h).1
  have hkeys : (nbs.foldl (fun m nb => m.connectNodes key nb lc) m).keys = m.keys :=
    connectAll_keys _ m
  have hc1 : (nbs.foldl (fun m nb => m.connectNodes key nb lc) m).Closed := hp.closed.connectAll nbs
  have hs1 : (nbs.foldl (fun m nb => m.connectNodes key nb lc) m).Simple lc :=
    NodeMap.Simple.connectAll (fun k => ⟨hp.irrefl k lc, hnd k lc⟩) hp.mem hn
  rw [pruneAll_of_le fun nb hnb => by
    have := NodeMap.length_conns_lt hc1 hs1 (hkeys ▸ hkn nb hnb)
    rw [hkeys] at this
    omega] at hprune
  cases hprune
  exact hu.connectAll hp.mem hkn

/-- The whole loop, from the new node's layer down to 0. -/
theorem SelfFree.undirected_linkLayers :
    ∀ {n : Nat} {m m' : NodeMap} {curr c : Option Int}, SelfFree key m curr n → m.Undirected →
      m.NodupLists → (∀ l, m.keys.length ≤ cfg.maxConn l + 1) →
      RealmHnsw.linkLayers env cfg key vector (n + 1) m curr = .ok (m', c) → m'.Undirected
  | 0, _, _, _, _, hp, hu, hnd, hsmall, h => by
    obtain ⟨⟨m1, c1⟩, h1, h2⟩ := bind_eq_ok h
    cases h2
    exact hp.undirected_linkLayer hu hnd (hsmall 0) h1
  | _ + 1, _, _, _, _, hp, hu, hnd, hsmall, h => by
    obtain ⟨⟨m1, c1⟩, h1, h2⟩ := bind_eq_ok h
    obtain ⟨-, nbs, -, -, -, hprune, -⟩ := linkLayer_cases h1
    have hkeys := NodeMap.keys_of_shape (linkLayer_shape h1)
    exact (hp.next h1).undirected_linkLayers (hp.undirected_linkLayer hu hnd (hsmall _) h1)
      ((hnd.connectAll key _ nbs).pruneAll hprune) (fun l => hkeys ▸ hsmall l) h2

variable {idx idx' : HNSWIndex} {draw : Nat}

/-- An `insert` of a fresh key, into simple lists, that leaves at most `max_conn + 1` nodes keeps
every link two-way. -/
theorem NodeMap.Undirected.insert (hi : Inv env cfg idx) (hs : idx.vectors.SimpleLists)
    (hu : idx.vectors.Undirected) (hk : key ∉ idx.vectors.keys)
    (hins : insert env key vector draw idx = .ok idx')
    (hb : ∀ l, idx'.vectors.keys.length ≤ idx.config.maxConn l + 1) : idx'.vectors.Undirected := by
  have hu0 := hu.insertOrAssign_newNode hs.closed hk vector (selectLayer draw)
  rcases insert_cases hins with ⟨-, rfl⟩ | ⟨dim, -, -, ⟨-, rfl⟩ | ⟨hnil, curr, m, c, hd, hl, rfl⟩⟩
  · exact hu
  · exact hu0
  · obtain ⟨e, he, hek⟩ := hi.entry.exists_mem hnil
    obtain ⟨x, rfl, hx⟩ := descend_mem ⟨e, he, hek⟩ hd
    have hkeys := NodeMap.keys_of_shape (linkLayers_shape hl)
    simp only [saveToStorage_vectors] at hb
    exact (hs.selfFree hk hx _).undirected_linkLayers hu0
      (hs.nodup.insertOrAssign_newNode _ _ _) (fun l => hkeys ▸ hb l) hl

end Link

/-- The cap of a reachable index is the run's, when `M0` is set. -/
theorem Inv.maxConn {env : Env} {cfg : Config} {idx : HNSWIndex} (hi : Inv env cfg idx)
    (hM0 : 1 ≤ cfg.M0) (l : Nat) : idx.config.maxConn l = cfg.maxConn l := by
  rw [hi.config]
  simp only [Config.maxConn, Config.normalize]
  split_ifs <;> omega

/-- Every index an insert-only run reaches while it holds at most `min(M, M0) + 1` nodes has every
link two-way. -/
theorem NodeMap.Undirected.of_run {env : Env} {cfg : Config} {idx : HNSWIndex} (hM0 : 1 ≤ cfg.M0)
    (h : ReachableBy env cfg Write.IsInsert idx) :
    idx.vectors.keys.length ≤ min cfg.M cfg.M0 + 1 → idx.vectors.Undirected := by
  induction h with
  | create => exact fun _ => NodeMap.undirected_empty
  | step w hw hr ha hs ih =>
    obtain ⟨key, vector, draw, rfl, hins⟩ := hw.apply hs
    intro hb
    have hgrow := insert_keys_length ha.1 hins
    refine (ih (by omega)).insert hr.reachable.inv (simpleLists_of_insert_run hr) ha.1 hins fun l => ?_
    rw [hr.reachable.inv.maxConn hM0]
    unfold Config.maxConn
    split <;> omega

/-- Inserts alone, with `M0 ≥ 1`, keep every link two-way, at every layer, while the index holds
at most `min(M, M0) + 1` nodes: no list outgrows its cap, so `prune_connections` cuts nothing.
`verify` then passes, whenever `max_conn + 2` fits a `size_t`. -/
theorem undirected_of_small_insert_run {env : Env} {cfg : Config} {idx : HNSWIndex}
    (hM0 : 1 ≤ cfg.M0) (hcfg : ∀ l, cfg.maxConn l + 2 < 2 ^ 64)
    (h : ReachableBy env cfg Write.IsInsert idx) (hn : idx.vectors.nodes.length ≤ min cfg.M cfg.M0 + 1) :
    idx.vectors.Undirected ∧ verify idx = true := by
  have hu := NodeMap.Undirected.of_run hM0 h (by simpa [NodeMap.keys] using hn)
  have hi := h.reachable.inv
  refine ⟨hu, (verify_iff idx).2 ⟨hu.symmetric, hi.capped.withinSlack fun l => ?_⟩⟩
  rw [hi.maxConn hM0]
  exact hcfg l

/-- Two inserts under the default configuration leave two nodes linked both ways, and `verify`
passing. -/
theorem undirected_of_small_insert_run_two :
    ∃ idx, ReachableBy Env.sample (Config.default .euclidean) Write.IsInsert idx ∧
      idx.vectors.nodes.length = 2 ∧ idx.vectors.Undirected ∧ verify idx = true := by
  have r : ReachableBy Env.sample (Config.default .euclidean) Write.IsInsert _ :=
    .step (.insert 2 [Double.one] 0) trivial
      (.step (.insert 1 [Double.one] 0) trivial (.create (by decide)) ⟨by decide, by decide, by decide⟩ rfl)
      ⟨by decide, by decide, by decide⟩ rfl
  exact ⟨_, r, rfl, undirected_of_small_insert_run (by decide) (fun l => by
    unfold Config.maxConn; split <;> decide) r (by decide)⟩

end RealmHnsw
