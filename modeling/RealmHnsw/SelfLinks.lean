import RealmHnsw.Adjacency
import RealmHnsw.Verify
/-!
# No node is its own neighbour under inserts

`insert` puts the new node into `m_vectors` before its layer loop, and links it to whatever its
search and `select_neighbors_*` return, with no check that a neighbour is not the node itself. So
it links a node to itself exactly when a search can reach the new node, which takes a list naming
its key.

Inserts of fresh keys alone never do: no list names an absent key (`NodeMap.Closed`), the search
starts from an old node and follows lists only, `extend_candidates` adds only what the candidates'
lists name, and `prune_connections` replaces a list by a selection from that list.
`simpleLists_of_insert_run` carries that with what `RealmHnsw.Connectivity` and
`RealmHnsw.Adjacency` show of the same steps: in every insert-only run, every list names present
nodes only, never its own node, and no key twice. `no_self_links_of_insert_run` is its middle part.

`set(key)` does make one (`set_links_node_to_itself`): it erases the key, whose range-for leaves
stale links to it (`RealmHnsw.Erase`), and inserts it again. The search of that insert can walk a
stale link back to the new node itself, which is then its own nearest candidate.
-/

namespace RealmHnsw

/-- No node lists itself, at any layer. -/
def NodeMap.Irrefl (m : NodeMap) : Prop := ∀ k l, k ∉ m.conns k l

theorem NodeMap.irrefl_empty : NodeMap.empty.Irrefl := fun _ _ => by
  simp [NodeMap.conns, NodeMap.find, NodeMap.empty]

/-! ## What `extend_candidates` adds -/

section Extend

variable {fpu : Fpu} {m : NodeMap} {metric : DistanceMetric} {query : List Double}

/-- The inner loop of `extend_candidates` adds only keys of the list it walks. -/
theorem extendFrom_named : ∀ {nbs : List Int} {acc acc' : List (Int × Double) × List Int},
    extendFrom fpu m metric query nbs acc = .ok acc' → ∀ p ∈ acc'.1, p ∈ acc.1 ∨ p.1 ∈ nbs
  | [], _, _, h => by cases h; exact fun p hp => .inl hp
  | nb :: rest, (ws, seen), acc', h => by
    unfold extendFrom at h
    have tail : ∀ {acc₀ : List (Int × Double) × List Int}, extendFrom fpu m metric query rest acc₀ = .ok acc' →
        (∀ p ∈ acc₀.1, p ∈ ws ∨ p.1 = nb) → ∀ p ∈ acc'.1, p ∈ ws ∨ p.1 ∈ nb :: rest := by
      intro acc₀ h h₀ p hp
      rcases extendFrom_named h p hp with hp | hp
      · exact (h₀ p hp).imp_right fun he => by rw [he]; exact List.mem_cons_self _ _
      · exact .inr (List.mem_cons_of_mem nb hp)
    split at h
    · exact tail h fun p hp => .inl hp
    · split at h
      · exact tail h fun p hp => .inl hp
      · obtain ⟨d, -, h⟩ := bind_eq_ok h
        refine tail h fun p hp => ?_
        rcases List.mem_append.1 hp with hp | hp
        · exact .inl hp
        · exact .inr (by rw [List.mem_singleton.1 hp])

/-- The outer loop of `extend_candidates` adds only keys the candidates' lists name at the layer. -/
theorem extendCandidates_named {layer : Nat} : ∀ {cs : List (Int × Double)}
    {acc acc' : List (Int × Double) × List Int},
    extendCandidates fpu m metric query layer cs acc = .ok acc' →
      ∀ p ∈ acc'.1, p ∈ acc.1 ∨ ∃ c ∈ cs, p.1 ∈ m.conns c.1 layer
  | [], _, _, h => by cases h; exact fun p hp => .inl hp
  | c :: cs, acc, acc', h => by
    have tail : ∀ {acc₀ : List (Int × Double) × List Int},
        extendCandidates fpu m metric query layer cs acc₀ = .ok acc' →
        (∀ p ∈ acc₀.1, p ∈ acc.1 ∨ p.1 ∈ m.conns c.1 layer) →
        ∀ p ∈ acc'.1, p ∈ acc.1 ∨ ∃ c' ∈ c :: cs, p.1 ∈ m.conns c'.1 layer := by
      intro acc₀ h h₀ p hp
      rcases extendCandidates_named h p hp with hp | ⟨c', hc', hp⟩
      · exact (h₀ p hp).imp_right fun hp => ⟨c, List.mem_cons_self _ _, hp⟩
      · exact .inr ⟨c', List.mem_cons_of_mem c hc', hp⟩
    unfold extendCandidates at h
    split at h
    · rename_i node hn
      split at h
      · obtain ⟨acc1, h1, h2⟩ := bind_eq_ok h
        refine tail h2 fun p hp => (extendFrom_named h1 p hp).imp_right fun hp => ?_
        simpa only [NodeMap.conns, hn] using hp
      · exact tail h fun p hp => .inl hp
    · exact tail h fun p hp => .inl hp

variable {env : Env} {cfg : Config} {vector : List Double}

/-- The neighbours `insert` chooses at a layer are candidates, or keys the candidates' lists name
at that layer. -/
theorem chooseNeighbors_named {cands : List (Int × Double)} {lc : Nat} {nbs : List Int}
    (h : chooseNeighbors env cfg vector m cands lc = .ok nbs) :
    ∀ x ∈ nbs, (∃ p ∈ cands, p.1 = x) ∨ ∃ p ∈ cands, x ∈ m.conns p.1 lc := by
  unfold chooseNeighbors at h
  split at h
  · cases h
    exact fun x hx => .inl (selectNeighborsSimple_mem hx)
  · obtain ⟨ws, hws, h⟩ := bind_eq_ok h
    have hw : ∀ p ∈ ws, p ∈ cands ∨ ∃ c ∈ cands, p.1 ∈ m.conns c.1 lc := by
      unfold workingSet at hws
      rw [if_pos rfl] at hws
      cases hacc : extendCandidates env.fpu m cfg.metric vector lc cands (cands, cands.map (·.1)) with
      | error e => rw [hacc] at hws; cases hws
      | ok acc =>
        rw [hacc] at hws
        cases hws
        exact fun p hp => extendCandidates_named hacc p ((sortByDistance_perm _ _).subset hp)
    intro x hx
    rcases selectDiverse_mem h x hx with hx | ⟨p, hp, rfl⟩
    · cases hx
    · exact (hw p hp).imp (fun hp' => ⟨p, hp', rfl⟩) id

end Extend

/-! ## Each step of the linking loop -/

section Steps

variable {fpu : Fpu} {cfg : Config} {m m' : NodeMap} {key : Int} {layer lc : Nat}

/-- A prune leaves at the pruned node a selection from its own list. -/
theorem pruneConnections_subset_self (hp : pruneConnections fpu cfg m key layer = .ok m') :
    m'.conns key layer ⊆ m.conns key layer := by
  unfold pruneConnections at hp
  split at hp
  · cases hp; exact List.Subset.refl _
  · rename_i node hn
    have hconn : node.connections.getD layer [] = m.conns key layer := by
      simp only [NodeMap.conns, hn]
    split at hp
    · have long : m.LongAt key layer := fun n h' => by rw [hn] at h'; cases h'; assumption
      dsimp only at hp
      split at hp
      · cases hp; exact List.Subset.refl _
      · obtain ⟨cands, hc, hp⟩ := bind_eq_ok hp
        obtain ⟨nn, hnn, hp⟩ := bind_eq_ok hp
        cases hp
        rw [conns_cut_self long (by simp [hn])]
        obtain ⟨ws, hws, hsel⟩ := bind_eq_ok hnn
        obtain rfl : sortByDistance fpu cands = ws := Except.ok.inj hws
        intro x hx
        rcases selectDiverse_mem hsel x hx with hx | ⟨p, hp, rfl⟩
        · cases hx
        · exact hconn ▸ (neighborDistances_sublist hc).subset
            (List.mem_map_of_mem _ ((sortByDistance_perm _ cands).subset hp))
    · cases hp; exact List.Subset.refl _

theorem NodeMap.Irrefl.prune (h : m.Irrefl) (hp : pruneConnections fpu cfg m key layer = .ok m') :
    m'.Irrefl := by
  intro x l hx
  by_cases hxl : x = key ∧ l = layer
  · obtain ⟨rfl, rfl⟩ := hxl
    exact h x l (pruneConnections_subset_self hp hx)
  · exact h x l ((pruneConnections_sublist hp x l (by tauto)).subset hx)

theorem NodeMap.Irrefl.pruneAll :
    ∀ {nbs : List Int} {m m' : NodeMap}, m.Irrefl →
      nbs.foldlM (fun m nb => pruneConnections fpu cfg m nb lc) m = .ok m' → m'.Irrefl
  | [], _, _, h, hp => by cases hp; exact h
  | _ :: _, _, _, h, hp => by
    rw [List.foldlM_cons] at hp
    obtain ⟨m1, h1, h2⟩ := bind_eq_ok hp
    exact (h.prune h1).pruneAll h2

/-- Linking the new node to neighbours other than itself lists no node in its own list. -/
theorem NodeMap.Irrefl.connectAll {nbs : List Int} (h : m.Irrefl) (hk : key ∈ m.keys)
    (hn : ∀ nb ∈ nbs, nb ∈ m.keys ∧ nb ≠ key) :
    (nbs.foldl (fun m nb => m.connectNodes key nb lc) m).Irrefl := by
  intro k l hmem
  rcases (mem_connectAll_conns hk fun nb h => (hn nb h).1).1 hmem with h' | ⟨-, ⟨rfl, h'⟩ | ⟨h', rfl⟩⟩
  · exact h k l h'
  · exact (hn k h').2 rfl
  · exact (hn k h').2 rfl

theorem NodeMap.Irrefl.insertOrAssign_newNode (h : m.Irrefl) (vector : List Double) (L : Nat) :
    (m.insertOrAssign (newNode key vector L)).Irrefl := by
  intro k l hk
  rw [NodeMap.conns_insertOrAssign_newNode] at hk
  split at hk
  · cases hk
  · exact h k l hk

end Steps

/-! ## The linking loop and insert-only runs -/

section Link

variable {env : Env} {cfg : Config} {key : Int} {vector : List Double} {m m' : NodeMap}
  {curr c : Option Int}

/-- Where `insert`'s linking loop stands before layer `lc`, for the new node `key`: no list names
an absent node, nor the new node at the layers still to link, no node lists itself, and `curr` is a
present node other than the new one. -/
structure SelfFree (key : Int) (m : NodeMap) (curr : Option Int) (lc : Nat) : Prop where
  closed : m.Closed
  irrefl : m.Irrefl
  fresh : ∀ k l, l ≤ lc → key ∉ m.conns k l
  curr : ∃ x, curr = some x ∧ x ∈ m.keys ∧ x ≠ key
  mem : key ∈ m.keys

/-- The neighbours a layer links the new node to are present nodes other than itself. -/
theorem SelfFree.chosen {lc : Nat} {cands : List (Int × Double)} {nbs : List Int}
    (hp : SelfFree key m curr lc)
    (hs : searchLayerWithDistances env.fpu m cfg.metric vector curr cfg.efConstruction lc = .ok cands)
    (hch : chooseNeighbors env cfg vector m cands lc = .ok nbs) :
    ∀ nb ∈ nbs, nb ∈ m.keys ∧ nb ≠ key := by
  obtain ⟨x, rfl, -, hxk⟩ := hp.curr
  have havoid := searchLayerWithDistances_avoids hs hxk fun k => hp.fresh k lc le_rfl
  intro nb hnb
  rcases chooseNeighbors_named hch nb hnb with ⟨p, hp', rfl⟩ | ⟨p, -, hnb'⟩
  · exact havoid p hp'
  · exact ⟨hp.closed _ _ _ hnb', fun he => hp.fresh p.1 lc le_rfl (he ▸ hnb')⟩

/-- One layer links the new node only to nodes other than itself. -/
theorem SelfFree.irrefl_linkLayer {lc : Nat} (hp : SelfFree key m curr lc)
    (h : linkLayer env cfg key vector m curr lc = .ok (m', c)) : m'.Irrefl := by
  obtain ⟨cands, nbs, hs, hch, -, hprune, -⟩ := linkLayer_cases h
  exact (hp.irrefl.connectAll hp.mem (hp.chosen hs hch)).pruneAll hprune

theorem SelfFree.next {lc : Nat} (hp : SelfFree key m curr (lc + 1))
    (h : linkLayer env cfg key vector m curr (lc + 1) = .ok (m', c)) : SelfFree key m' c lc := by
  have hkeys := NodeMap.keys_of_shape (linkLayer_shape h)
  have hother : ∀ k l, l ≤ lc → m'.conns k l = m.conns k l :=
    fun k l hl => linkLayer_conns_other h k (by omega)
  have hirr := hp.irrefl_linkLayer h
  obtain ⟨x, rfl, hx, hxk⟩ := hp.curr
  obtain ⟨cands, -, hs, -, -, -, rfl⟩ := linkLayer_cases h
  have havoid := searchLayerWithDistances_avoids hs hxk fun k => hp.fresh k _ le_rfl
  refine ⟨hp.closed.linkLayer h, hirr, fun k l hl => hother k l hl ▸ hp.fresh k l (by omega), ?_,
    hkeys ▸ hp.mem⟩
  rw [hkeys]
  cases cands with
  | nil => exact ⟨x, rfl, hx, hxk⟩
  | cons p _ => exact ⟨p.1, rfl, havoid p (.head _)⟩

/-- The whole loop, from the new node's layer down to 0. -/
theorem SelfFree.linkLayers :
    ∀ {n : Nat} {m m' : NodeMap} {curr c : Option Int}, SelfFree key m curr n →
      linkLayers env cfg key vector (n + 1) m curr = .ok (m', c) → m'.Irrefl
  | 0, _, _, _, _, hp, h => by
    obtain ⟨⟨m1, c1⟩, h1, h2⟩ := bind_eq_ok h
    cases h2
    exact hp.irrefl_linkLayer h1
  | _ + 1, _, _, _, _, hp, h => by
    obtain ⟨⟨m1, c1⟩, h1, h2⟩ := bind_eq_ok h
    exact (hp.next h1).linkLayers h2

/-- What inserts of fresh keys keep of every list: it names present nodes only, never its own
node, and no key twice. -/
structure NodeMap.SimpleLists (m : NodeMap) : Prop where
  closed : m.Closed
  irrefl : m.Irrefl
  nodup : m.NodupLists

theorem NodeMap.SimpleLists.simple (h : m.SimpleLists) (l : Nat) : m.Simple l :=
  fun k => ⟨h.irrefl k l, h.nodup k l⟩

/-- The map `insert` links into, from a present node: the old nodes, and the new one, which no
list names. -/
theorem NodeMap.SimpleLists.selfFree (h : m.SimpleLists) (hk : key ∉ m.keys) {x : Int}
    (hx : x ∈ m.keys) (L : Nat) : SelfFree key (m.insertOrAssign (newNode key vector L)) (some x) L := by
  have hkeys := NodeMap.keys_insertOrAssign_of_fresh m (newNode key vector L) hk
  refine ⟨h.closed.insertOrAssign_newNode hk vector L, h.irrefl.insertOrAssign_newNode vector L,
    fun k l _ hy => ?_, ⟨x, rfl, hkeys ▸ List.mem_append_left _ hx, fun he => hk (he ▸ hx)⟩,
    hkeys ▸ List.mem_append_right _ (List.mem_singleton_self _)⟩
  rw [NodeMap.conns_insertOrAssign_newNode] at hy
  split at hy
  · cases hy
  · exact hk (h.closed k l key hy)

variable {idx idx' : HNSWIndex} {draw : Nat}

/-- An `insert` of a key the index does not hold keeps every list simple. -/
theorem NodeMap.SimpleLists.insert (hi : Inv env cfg idx) (h : idx.vectors.SimpleLists)
    (hk : key ∉ idx.vectors.keys) (hins : insert env key vector draw idx = .ok idx') :
    idx'.vectors.SimpleLists := by
  have hnd := h.nodup.insert hins
  rcases insert_cases hins with ⟨-, rfl⟩ | ⟨dim, -, -, ⟨-, rfl⟩ | ⟨hnil, curr, m, c, hd, hl, rfl⟩⟩
  · exact h
  · exact ⟨h.closed.insertOrAssign_newNode hk _ _, h.irrefl.insertOrAssign_newNode _ _, hnd⟩
  · obtain ⟨e, he, hek⟩ := hi.entry.exists_mem hnil
    obtain ⟨x, rfl, hx⟩ := descend_mem ⟨e, he, hek⟩ hd
    exact ⟨(h.closed.insertOrAssign_newNode hk _ _).linkLayers hl, (h.selfFree hk hx _).linkLayers hl, hnd⟩

end Link

/-- Every insert-only run keeps every list simple. -/
theorem simpleLists_of_insert_run {env : Env} {cfg : Config} {idx : HNSWIndex}
    (h : ReachableBy env cfg Write.IsInsert idx) : idx.vectors.SimpleLists := by
  induction h with
  | create => exact ⟨nofun, NodeMap.irrefl_empty, NodeMap.nodupLists_empty⟩
  | step w hw hr ha hs ih =>
    obtain ⟨key, vector, draw, rfl, hins⟩ := hw.apply hs
    exact ih.insert hr.reachable.inv ha.1 hins

/-- In every insert-only run of fresh keys, under any configuration and floating-point unit, no
node lists itself at any layer. -/
theorem no_self_links_of_insert_run {env : Env} {cfg : Config} {idx : HNSWIndex}
    (h : ReachableBy env cfg Write.IsInsert idx) (k : Int) (l : Nat) : k ∉ idx.vectors.conns k l :=
  (simpleLists_of_insert_run h).irrefl k l

/-- After four inserts, with `M0 = 2` and a prune that skips a neighbour, node 1 still does not
list itself. -/
theorem no_self_links_of_insert_run_skewed : (1 : Int) ∉ skewedInserts.vectors.conns 1 0 :=
  no_self_links_of_insert_run reachable_skewedInserts 1 0

set_option maxRecDepth 100000 in
/-- `set(1, [5.0])` on `fourInserts` erases key 1, which leaves node 3 listing it, and inserts it
again. The insert's search walks from node 3 to the new node 1, its own nearest candidate at
distance `0.0`, and `connect_nodes(1, 1, 0)` makes node 1 its own neighbour. -/
theorem set_links_node_to_itself :
    ∃ idx, Reachable Env.integral (Config.default .euclidean) idx ∧ 1 ∈ idx.vectors.keys ∧
      1 ∈ idx.vectors.conns 1 0 :=
  ⟨_, .step (.set 1 [Double.ofIntegral false 5] 0) reachable_fourInserts ⟨by decide, by decide⟩ rfl,
    by decide, by decide⟩

end RealmHnsw
