import RealmHnsw.Invariants
import RealmHnsw.Guarantees
/-!
# Layer 0 under inserts

`search_knn` ends with a search of layer 0 from the node its descent reached, and visits what the
layer-0 lists lead to from there. An index is connected at a layer when every node reaches every
node along its lists there (`NodeMap.Connected`).

Inserts alone keep layer 0 connected while no list outgrows `M0`: the new node is linked, both
ways, to at least one present node the search found, and nothing is cut. With at most `M0 + 1`
nodes no layer-0 list can outgrow `M0`, as no node lists itself or a key twice, so every
insert-only run up to that size is connected. One node more, and `prune_connections`, which cuts
both directions of every link it drops, can leave a node with no link at layer 0.

`insert` does not check that its key is new. Inserting the only key of an index again, at layer 0,
finds that key in the layer-0 search and links it to itself (`insert_indexed_self_loop`).
-/

namespace RealmHnsw

namespace NodeMap

/-- Every list names a present node. -/
def Closed (m : NodeMap) : Prop := ∀ k l x, x ∈ m.conns k l → x ∈ m.keys

/-- At `layer`, no node lists itself and no list names a key twice. -/
def Simple (m : NodeMap) (layer : Nat) : Prop := ∀ k, k ∉ m.conns k layer ∧ (m.conns k layer).Nodup

/-- `y` can be reached from `x` along the lists at `layer`. -/
inductive Reach (m : NodeMap) (layer : Nat) : Int → Int → Prop
  | refl (x : Int) : Reach m layer x x
  | step {x y z : Int} : y ∈ m.conns x layer → Reach m layer y z → Reach m layer x z

/-- Every present node reaches every present node along the lists at `layer`. -/
def Connected (m : NodeMap) (layer : Nat) : Prop := ∀ x ∈ m.keys, ∀ y ∈ m.keys, m.Reach layer x y

variable {m m' : NodeMap} {layer : Nat}

theorem Reach.trans {x y z : Int} (h₁ : m.Reach layer x y) (h₂ : m.Reach layer y z) :
    m.Reach layer x z := by
  induction h₁ with
  | refl => exact h₂
  | step hxy _ ih => exact .step hxy (ih h₂)

/-- Reaching survives lists that only grow. -/
theorem Reach.mono (hsub : ∀ k, m.conns k layer ⊆ m'.conns k layer) {x y : Int}
    (h : m.Reach layer x y) : m'.Reach layer x y := by
  induction h with
  | refl x => exact .refl x
  | step hxy _ ih => exact .step (hsub _ hxy) ih

/-- A node with an empty list reaches no other node. -/
theorem not_reach_of_nil {x y : Int} (hx : m.conns x layer = []) (hxy : x ≠ y) :
    ¬ m.Reach layer x y := by
  intro h
  cases h with
  | refl => exact hxy rfl
  | step hmem _ => simp [hx] at hmem

theorem isSome_find_iff {k : Int} : (m.find k).isSome ↔ k ∈ m.keys := by
  rw [Option.isSome_iff_exists, mem_keys]

/-- A list of a node, with the node itself, is at most all the keys. -/
theorem length_conns_lt (hc : m.Closed) (hs : m.Simple layer) {k : Int} (hk : k ∈ m.keys) :
    (m.conns k layer).length < m.keys.length := by
  have hsub : k :: m.conns k layer ⊆ m.keys := List.cons_subset.2 ⟨hk, hc k layer⟩
  exact (List.subperm_of_subset (List.nodup_cons.2 (hs k)) hsub).length_le

theorem Closed.of_shrinks (hm : m.Closed) (hs : Shrinks m m') (hsh : m'.shape = m.shape) :
    m'.Closed := fun k l x hx => keys_of_shape hsh ▸ hm k l x ((hs k l).subset hx)

/-! ## Linking two present nodes -/

theorem mem_connectNodes_conns {a b x y : Int} {l : Nat} (ha : a ∈ m.keys) (hb : b ∈ m.keys) :
    y ∈ (m.connectNodes a b layer).conns x l ↔
      y ∈ m.conns x l ∨ (l = layer ∧ ((x = a ∧ y = b) ∨ (x = b ∧ y = a))) := by
  rw [connectNodes_conns]
  by_cases hl : l = layer
  · rw [if_pos ⟨isSome_find_iff.2 ha, isSome_find_iff.2 hb, hl⟩]
    split_ifs <;> subst_vars <;> simp [mem_pushUnique, *]
  · rw [if_neg fun h => hl h.2.2]
    simp [hl]

theorem Closed.connectNodes (hm : m.Closed) (a b : Int) : (m.connectNodes a b layer).Closed := by
  intro k l x hx
  rw [keys_of_shape (connectNodes_shape _ _ _ _)]
  by_cases hab : a ∈ m.keys ∧ b ∈ m.keys
  · rcases (mem_connectNodes_conns hab.1 hab.2).1 hx with hx | ⟨-, ⟨-, rfl⟩ | ⟨-, rfl⟩⟩
    exacts [hm k l x hx, hab.2, hab.1]
  · rw [connectNodes_conns, if_neg fun h => hab ⟨isSome_find_iff.1 h.1, isSome_find_iff.1 h.2.1⟩]
      at hx
    exact hm k l x hx

theorem nodup_pushUnique {l : List Int} (h : l.Nodup) (x : Int) : (pushUnique l x).Nodup := by
  unfold pushUnique
  split
  · exact h
  · exact h.append (List.nodup_singleton x) (List.disjoint_singleton.2 ‹_›)

theorem nodup_connectNodes_conns {a b x : Int} {l : Nat} (h : (m.conns x l).Nodup) :
    ((m.connectNodes a b layer).conns x l).Nodup := by
  rw [connectNodes_conns]
  split_ifs <;> first
    | exact h
    | exact nodup_pushUnique h _
    | exact nodup_pushUnique (nodup_pushUnique h _) _

end NodeMap

/-! ## The loops of one layer -/

section Loops

variable {key : Int} {lc : Nat}

theorem connectAll_keys :
    ∀ (nbs : List Int) (m : NodeMap), (nbs.foldl (fun m nb => m.connectNodes key nb lc) m).keys = m.keys :=
  fun nbs m => NodeMap.keys_of_shape (connectAll_shape key lc nbs m)

theorem NodeMap.Closed.connectAll :
    ∀ (nbs : List Int) {m : NodeMap}, m.Closed → (nbs.foldl (fun m nb => m.connectNodes key nb lc) m).Closed
  | [], _, hm => hm
  | _ :: nbs, _, hm => NodeMap.Closed.connectAll nbs (hm.connectNodes _ _)

/-- What the connect loop adds: the neighbours to the new node's list, and the new node to each
neighbour's list, at `lc`. -/
theorem mem_connectAll_conns {x y : Int} {l : Nat} :
    ∀ {nbs : List Int} {m : NodeMap}, key ∈ m.keys → (∀ nb ∈ nbs, nb ∈ m.keys) →
      (y ∈ (nbs.foldl (fun m nb => m.connectNodes key nb lc) m).conns x l ↔
        y ∈ m.conns x l ∨ (l = lc ∧ ((x = key ∧ y ∈ nbs) ∨ (x ∈ nbs ∧ y = key))))
  | [], _, _, _ => by simp
  | nb :: nbs, m, hk, hn => by
    have hkeys := NodeMap.keys_of_shape (NodeMap.connectNodes_shape m key nb lc)
    rw [List.foldl_cons, mem_connectAll_conns (hkeys ▸ hk) (fun x hx => hkeys ▸ hn x (.tail _ hx)),
      NodeMap.mem_connectNodes_conns hk (hn nb (.head _))]
    simp only [List.mem_cons, and_or_left, or_and_right, or_assoc, or_comm, or_left_comm]

theorem nodup_connectAll_conns {x : Int} {l : Nat} :
    ∀ {nbs : List Int} {m : NodeMap}, (m.conns x l).Nodup →
      ((nbs.foldl (fun m nb => m.connectNodes key nb lc) m).conns x l).Nodup
  | [], _, h => h
  | _ :: _, _, h => by
    rw [List.foldl_cons]
    exact nodup_connectAll_conns (NodeMap.nodup_connectNodes_conns h)

/-- Linking the new node to neighbours other than itself keeps layer `lc` simple. -/
theorem NodeMap.Simple.connectAll {m : NodeMap} {nbs : List Int} (hs : m.Simple lc) (hk : key ∈ m.keys)
    (hn : ∀ nb ∈ nbs, nb ∈ m.keys ∧ nb ≠ key) :
    (nbs.foldl (fun m nb => m.connectNodes key nb lc) m).Simple lc := by
  intro k
  refine ⟨fun hmem => ?_, nodup_connectAll_conns (hs k).2⟩
  rcases (mem_connectAll_conns hk fun nb h => (hn nb h).1).1 hmem with h | ⟨-, ⟨rfl, h⟩ | ⟨h, rfl⟩⟩
  · exact (hs k).1 h
  · exact (hn k h).2 rfl
  · exact (hn k h).2 rfl

variable {fpu : Fpu} {cfg : Config}

theorem NodeMap.Closed.prune {m m' : NodeMap} {k : Int} (hm : m.Closed)
    (h : pruneConnections fpu cfg m k lc = .ok m') : m'.Closed := by
  rcases pruneConnections_cases h with ⟨rfl, -⟩ | ⟨nn, -, hnn, long, -, rfl⟩
  · exact hm
  · intro x l y hy
    rw [NodeMap.keys_of_shape (pruneConnections_shape h)]
    rw [set_conns _ _ _ _ _ _ (long.disconnectEach _ _ _ _ _ _)] at hy
    split at hy
    · exact hnn y hy
    · exact hm x l y ((NodeMap.shrinks_disconnectEach _ _ _ _ _ _ _ x l).subset hy)

theorem NodeMap.Closed.pruneAll :
    ∀ {nbs : List Int} {m m' : NodeMap}, m.Closed →
      nbs.foldlM (fun m nb => pruneConnections fpu cfg m nb lc) m = .ok m' → m'.Closed
  | [], _, _, hm, h => by cases h; exact hm
  | _ :: _, _, _, hm, h => by
    rw [List.foldlM_cons] at h
    obtain ⟨m1, h1, h2⟩ := bind_eq_ok h
    exact (hm.prune h1).pruneAll h2

/-- A prune loop over lists within their cap changes nothing. -/
theorem pruneAll_of_le {m : NodeMap} :
    ∀ {nbs : List Int}, (∀ nb ∈ nbs, (m.conns nb lc).length ≤ cfg.maxConn lc) →
      nbs.foldlM (fun m nb => pruneConnections fpu cfg m nb lc) m = .ok m
  | [], _ => rfl
  | nb :: _, h => by
    rw [List.foldlM_cons, pruneConnections_of_le (h nb (.head _)), ok_bind]
    exact pruneAll_of_le fun x hx => h x (.tail _ hx)

end Loops

/-! ## The descent and the linking loop of `insert` -/

section Link

variable {env : Env} {cfg : Config} {key : Int} {vector : List Double}

/-- The greedy descent from a present node ends at a present node. -/
theorem descend_mem {m : NodeMap} {metric : DistanceMetric} :
    ∀ {lc n : Nat} {curr r : Option Int}, (∃ x, curr = some x ∧ x ∈ m.keys) →
      descend env m metric vector lc n curr = .ok r → ∃ x, r = some x ∧ x ∈ m.keys
  | _, 0, _, _, hc, h => by cases h; exact hc
  | _, _ + 1, _, _, ⟨x, rfl, hx⟩, h => by
    obtain ⟨results, h1, h2⟩ := bind_eq_ok h
    refine descend_mem ?_ h2
    cases results with
    | nil => exact ⟨x, rfl, hx⟩
    | cons y _ => exact ⟨y, rfl, ((searchLayer_spec h1).1 y (.head _)).1⟩

/-- A search from a node other than the new one, at a layer where no list names the new node,
returns present nodes other than the new one. -/
theorem searchLayerWithDistances_avoids {fpu : Fpu} {m : NodeMap} {metric : DistanceMetric}
    {x : Int} {ef lc : Nat} {r : List (Int × Double)}
    (h : searchLayerWithDistances fpu m metric vector (some x) ef lc = .ok r) (hxk : x ≠ key)
    (hfresh : ∀ k, key ∉ m.conns k lc) : ∀ p ∈ r, p.1 ∈ m.keys ∧ p.1 ≠ key := by
  intro p hp
  obtain ⟨hpk, hpx | ⟨k, hpk'⟩⟩ := (searchLayerWithDistances_spec h).1 p hp
  exacts [⟨hpk, hpx ▸ hxk⟩, ⟨hpk, fun he => hfresh k (he ▸ hpk')⟩]

theorem NodeMap.Closed.linkLayer {m m' : NodeMap} {curr c : Option Int} {lc : Nat} (hm : m.Closed)
    (h : linkLayer env cfg key vector m curr lc = .ok (m', c)) : m'.Closed := by
  obtain ⟨-, nbs, -, -, -, hp, -⟩ := linkLayer_cases h
  exact (hm.connectAll nbs).pruneAll hp

theorem NodeMap.Closed.linkLayers :
    ∀ {n : Nat} {m m' : NodeMap} {curr c : Option Int}, m.Closed →
      linkLayers env cfg key vector n m curr = .ok (m', c) → m'.Closed
  | 0, _, _, _, _, hm, h => by cases h; exact hm
  | _ + 1, _, _, _, _, hm, h => by
    obtain ⟨⟨m1, c1⟩, h1, h2⟩ := bind_eq_ok h
    exact (hm.linkLayer h1).linkLayers h2

/-- Where `insert`'s linking loop stands before layer `lc`, for the new node `key`: no list names
an absent node, nor the new node at the layers still to link; layer 0 is simple; `curr` is a
present node other than the new one; and the map is small enough that no layer-0 list can
outgrow `M0`. -/
structure LinkPre (cfg : Config) (key : Int) (m : NodeMap) (curr : Option Int) (lc : Nat) : Prop where
  closed : m.Closed
  simple : m.Simple 0
  curr : ∃ x, curr = some x ∧ x ∈ m.keys ∧ x ≠ key
  fresh : ∀ k l, l ≤ lc → key ∉ m.conns k l
  mem : key ∈ m.keys
  small : m.keys.length ≤ cfg.maxConn 0 + 1
  pos : 1 ≤ cfg.maxConn 0

/-- What the loop did at layer 0, from `m` to `m'`: no list names an absent node, layer 0 is
simple, every layer-0 list kept what it held, and the new node and some other node list each
other. -/
structure LinkPost (key : Int) (m m' : NodeMap) : Prop where
  closed : m'.Closed
  simple : m'.Simple 0
  keys : m'.keys = m.keys
  grow : ∀ k, m.conns k 0 ⊆ m'.conns k 0
  linked : ∃ nb ∈ m.keys, nb ≠ key ∧ nb ∈ m'.conns key 0 ∧ key ∈ m'.conns nb 0

/-- A layer above 0 leaves layer 0 as it was and the loop where it can go on. -/
theorem LinkPre.next {m m' : NodeMap} {curr c : Option Int} {lc : Nat}
    (hp : LinkPre cfg key m curr (lc + 1))
    (h : linkLayer env cfg key vector m curr (lc + 1) = .ok (m', c)) : LinkPre cfg key m' c lc := by
  have hkeys := NodeMap.keys_of_shape (linkLayer_shape h)
  have hother : ∀ k l, l ≤ lc → m'.conns k l = m.conns k l :=
    fun k l hl => linkLayer_conns_other h k (by omega)
  obtain ⟨x, rfl, hx, hxk⟩ := hp.curr
  obtain ⟨cands, -, hs, -, -, -, rfl⟩ := linkLayer_cases h
  have havoid := searchLayerWithDistances_avoids hs hxk fun k => hp.fresh k _ le_rfl
  refine ⟨hp.closed.linkLayer h, fun k => hother k 0 (Nat.zero_le _) ▸ hp.simple k, ?_,
    fun k l hl => hother k l hl ▸ hp.fresh k l (by omega), hkeys ▸ hp.mem, hkeys ▸ hp.small, hp.pos⟩
  rw [hkeys]
  cases cands with
  | nil => exact ⟨x, rfl, hx, hxk⟩
  | cons p _ => exact ⟨p.1, rfl, havoid p (.head _)⟩

/-- Layer 0: the new node is linked, both ways, to at least one node the search found, and no list
is pruned, as none has outgrown `M0`. -/
theorem LinkPre.zero {m m' : NodeMap} {curr c : Option Int} (hp : LinkPre cfg key m curr 0)
    (h : linkLayer env cfg key vector m curr 0 = .ok (m', c)) : LinkPost key m m' := by
  obtain ⟨x, rfl, hx, hxk⟩ := hp.curr
  obtain ⟨cands, nbs, hs, hch, -, hprune, -⟩ := linkLayer_cases h
  rw [chooseNeighbors, if_pos rfl] at hch
  have hnbs : selectNeighborsSimple cands (cfg.maxConn 0) = nbs := Except.ok.inj hch
  have hn : ∀ nb ∈ nbs, nb ∈ m.keys ∧ nb ≠ key := by
    intro nb hnb
    obtain ⟨p, hp', rfl⟩ := selectNeighborsSimple_mem (hnbs ▸ hnb)
    exact searchLayerWithDistances_avoids hs hxk (fun k => hp.fresh k 0 le_rfl) p hp'
  have hkn := fun nb h => (hn nb h).1
  obtain ⟨nb, hnb⟩ : ∃ nb, nb ∈ nbs := by
    obtain ⟨p, ps, rfl⟩ := List.exists_cons_of_ne_nil ((searchLayerWithDistances_spec hs).2 hx)
    obtain ⟨M, hM⟩ := Nat.exists_eq_add_of_le' hp.pos
    exact ⟨p.1, by simp [← hnbs, selectNeighborsSimple, hM]⟩
  have hkeys : (nbs.foldl (fun m nb => m.connectNodes key nb 0) m).keys = m.keys := connectAll_keys _ m
  have hc1 : (nbs.foldl (fun m nb => m.connectNodes key nb 0) m).Closed := hp.closed.connectAll nbs
  have hs1 := hp.simple.connectAll hp.mem hn
  rw [pruneAll_of_le fun nb hnb => by
    have := NodeMap.length_conns_lt hc1 hs1 (hkeys ▸ (hn nb hnb).1)
    have := hp.small
    rw [hkeys] at *
    omega] at hprune
  cases hprune
  exact ⟨hc1, hs1, hkeys, fun k y hy => (mem_connectAll_conns hp.mem hkn).2 (.inl hy), nb,
    (hn nb hnb).1, (hn nb hnb).2, (mem_connectAll_conns hp.mem hkn).2 (.inr ⟨rfl, .inl ⟨rfl, hnb⟩⟩),
    (mem_connectAll_conns hp.mem hkn).2 (.inr ⟨rfl, .inr ⟨hnb, rfl⟩⟩)⟩

/-- The whole loop, from the new node's layer down to 0. -/
theorem LinkPre.linkLayers :
    ∀ {n : Nat} {m m' : NodeMap} {curr c : Option Int}, LinkPre cfg key m curr n →
      linkLayers env cfg key vector (n + 1) m curr = .ok (m', c) → LinkPost key m m'
  | 0, _, _, _, _, hp, h => by
    obtain ⟨⟨m1, c1⟩, h1, h2⟩ := bind_eq_ok h
    cases h2
    exact hp.zero h1
  | _ + 1, m, _, _, _, hp, h => by
    obtain ⟨⟨m1, c1⟩, h1, h2⟩ := bind_eq_ok h
    have hkeys := NodeMap.keys_of_shape (linkLayer_shape h1)
    have h0 : ∀ k, m1.conns k 0 = m.conns k 0 := fun k => linkLayer_conns_other h1 k (by omega)
    obtain ⟨hc, hs, hk, hg, nb, hnb, hnbk, hl₁, hl₂⟩ := (hp.next h1).linkLayers h2
    exact ⟨hc, hs, hk.trans hkeys, fun k => h0 k ▸ hg k, nb, hkeys ▸ hnb, hnbk, hl₁, hl₂⟩

end Link

/-! ## Insert-only runs -/

/-- What an insert-only run keeps of the graph: no list names an absent node, and layer 0 is
simple and connected. -/
structure GraphInv (m : NodeMap) : Prop where
  closed : m.Closed
  simple : m.Simple 0
  connected : m.Connected 0

theorem NodeMap.conns_insertOrAssign_newNode (m : NodeMap) (key : Int) (vector : List Double)
    (L : Nat) (x : Int) (l : Nat) :
    (m.insertOrAssign (newNode key vector L)).conns x l = if x = key then [] else m.conns x l := by
  split
  · subst_vars
    exact insertOrAssign_conns_new m x vector L l
  · rw [insertOrAssign_conns, if_neg ‹_›]

theorem NodeMap.keys_insertOrAssign_of_fresh (m : NodeMap) (n : Node) (h : n.objKey ∉ m.keys) :
    (m.insertOrAssign n).keys = m.keys ++ [n.objKey] := by
  simp [keys, insertOrAssign_nodes_of_fresh m n h]

theorem NodeMap.conns_of_not_mem {m : NodeMap} {k : Int} (hk : k ∉ m.keys) (l : Nat) :
    m.conns k l = [] := by
  rw [conns, find_eq_none.2 hk]

theorem NodeMap.Closed.insertOrAssign_newNode {m : NodeMap} (hm : m.Closed) {key : Int}
    (hk : key ∉ m.keys) (vector : List Double) (L : Nat) :
    (m.insertOrAssign (newNode key vector L)).Closed := by
  intro k l y hy
  rw [conns_insertOrAssign_newNode] at hy
  split at hy
  · cases hy
  · rw [keys_insertOrAssign_of_fresh m _ hk]
    exact List.mem_append_left _ (hm k l y hy)

section Runs

variable {env : Env} {cfg : Config} {idx idx' : HNSWIndex} {key : Int} {vector : List Double}
  {draw : Nat}

/-- The map an `insert` links into, before layer `L`: the old nodes and the new one, with no
list. -/
theorem GraphInv.linkPre {m : NodeMap} (hg : GraphInv m) (hk : key ∉ m.keys) {x : Int}
    (hx : x ∈ m.keys) {c : Config} (hsmall : m.keys.length ≤ c.maxConn 0) (hpos : 1 ≤ c.maxConn 0)
    (L : Nat) : LinkPre c key (m.insertOrAssign (newNode key vector L)) (some x) L := by
  have hkeys := NodeMap.keys_insertOrAssign_of_fresh m (newNode key vector L) hk
  have hconns := NodeMap.conns_insertOrAssign_newNode m key vector L
  refine ⟨hg.closed.insertOrAssign_newNode hk vector L, fun k => ?_, ⟨x, rfl, ?_, fun h => hk (h ▸ hx)⟩,
    fun k l _ hy => ?_, ?_, ?_, hpos⟩
  · rw [hconns]
    split
    · exact ⟨List.not_mem_nil _, List.nodup_nil⟩
    · exact hg.simple k
  · rw [hkeys]
    exact List.mem_append_left _ hx
  · rw [hconns] at hy
    split at hy
    · cases hy
    · exact hk (hg.closed k l key hy)
  · rw [hkeys]
    exact List.mem_append_right _ (List.mem_singleton_self _)
  · rw [hkeys, List.length_append, List.length_singleton]
    omega

/-- Linking a fresh node to an old node both ways, while every old layer-0 list keeps what it
held, keeps layer 0 connected: the old nodes still reach each other, and the new node reaches them
and is reached through its neighbour. -/
theorem LinkPost.connected {m m' : NodeMap} {key : Int} {vector : List Double} {L : Nat}
    (hc : m.Connected 0) (hk : key ∉ m.keys) (post : LinkPost key (m.insertOrAssign (newNode key vector L)) m') :
    m'.Connected 0 := by
  have hkeys := NodeMap.keys_insertOrAssign_of_fresh m (newNode key vector L) hk
  have hgrow : ∀ k, m.conns k 0 ⊆ m'.conns k 0 := by
    intro k y hy
    refine post.grow k ?_
    rw [NodeMap.conns_insertOrAssign_newNode, if_neg]
    · exact hy
    · rintro rfl
      rw [NodeMap.conns_of_not_mem hk] at hy
      cases hy
  obtain ⟨nb, hnb, hnbk, h₁, h₂⟩ := post.linked
  rw [hkeys, List.mem_append, List.mem_singleton] at hnb
  have hnb' : nb ∈ m.keys := hnb.resolve_right hnbk
  have hr : ∀ {a b}, a ∈ m.keys → b ∈ m.keys → m'.Reach 0 a b :=
    fun ha hb => (hc _ ha _ hb).mono hgrow
  intro a ha b hb
  rw [post.keys, hkeys, List.mem_append, List.mem_singleton] at ha hb
  rcases ha with ha | rfl <;> rcases hb with hb | rfl
  · exact hr ha hb
  · exact (hr ha hnb').trans (.step h₂ (.refl _))
  · exact .step h₁ (hr hnb' hb)
  · exact .refl _

/-- An `insert` of a fresh key keeps `GraphInv` while the index stays within `M0 + 1` nodes. -/
theorem GraphInv.insert (hi : Inv env cfg idx) (hg : GraphInv idx.vectors) (hM0 : 1 ≤ cfg.M0)
    (hk : key ∉ idx.vectors.keys) (h : insert env key vector draw idx = .ok idx')
    (hb : idx'.vectors.keys.length ≤ cfg.M0 + 1) : GraphInv idx'.vectors := by
  have hM : idx.config.M0 = cfg.M0 := by
    rw [congrArg Config.M0 hi.config]
    exact if_neg (by omega)
  have hkeys := NodeMap.keys_insertOrAssign_of_fresh idx.vectors (newNode key vector (selectLayer draw)) hk
  rcases insert_cases h with ⟨-, rfl⟩ | ⟨dim, -, -, ⟨hnil, rfl⟩ | ⟨hnil, curr, m, c, hd, hl, rfl⟩⟩
  · exact hg
  · have hempty : idx.vectors.keys = [] := by simp [NodeMap.keys, hnil]
    have h0 : ∀ x l, (idx.vectors.insertOrAssign (newNode key vector (selectLayer draw))).conns x l = [] := by
      intro x l
      rw [NodeMap.conns_insertOrAssign_newNode, NodeMap.conns_of_not_mem (by simp [hempty])]
      split <;> rfl
    rw [saveToStorage_vectors]
    refine ⟨fun k l y hy => by simp [h0] at hy, fun k => by simp [h0], fun a ha b hb => ?_⟩
    rw [hkeys, hempty] at ha hb
    simp only [List.nil_append, List.mem_singleton, newNode] at ha hb
    subst ha hb
    exact .refl _
  · obtain ⟨e, he, hek⟩ := hi.entry.exists_mem hnil
    obtain ⟨x, rfl, hx⟩ := descend_mem ⟨e, he, hek⟩ hd
    have hm : m.keys = idx.vectors.keys ++ [key] := (NodeMap.keys_of_shape (linkLayers_shape hl)).trans hkeys
    have hsmall : idx.vectors.keys.length ≤ ({ idx.config with vectorDimension := dim } : Config).maxConn 0 := by
      rw [saveToStorage_vectors, hm, List.length_append, List.length_singleton] at hb
      show _ ≤ idx.config.M0
      omega
    have post := (hg.linkPre hk hx hsmall (by show 1 ≤ idx.config.M0; omega) _).linkLayers hl
    rw [saveToStorage_vectors]
    exact ⟨post.closed, post.simple, post.connected hg.connected hk⟩

theorem insert_keys_length (hk : key ∉ idx.vectors.keys) (h : insert env key vector draw idx = .ok idx') :
    idx.vectors.keys.length ≤ idx'.vectors.keys.length := by
  have hkeys := NodeMap.keys_insertOrAssign_of_fresh idx.vectors (newNode key vector (selectLayer draw)) hk
  rcases insert_cases h with ⟨-, rfl⟩ | ⟨dim, -, -, ⟨-, rfl⟩ | ⟨-, curr, m, c, -, hl, rfl⟩⟩
  · exact le_rfl
  · simp [hkeys]
  · simp [NodeMap.keys_of_shape (linkLayers_shape hl), hkeys]

/-- Every index an insert-only run reaches while it holds at most `M0 + 1` nodes keeps
`GraphInv`. -/
theorem GraphInv.of_run (hM0 : 1 ≤ cfg.M0) (h : ReachableBy env cfg Write.IsInsert idx) :
    idx.vectors.keys.length ≤ cfg.M0 + 1 → GraphInv idx.vectors := by
  induction h with
  | create => exact fun _ => ⟨nofun, fun _ => ⟨nofun, List.nodup_nil⟩, nofun⟩
  | step w hw hr ha hs ih =>
    obtain ⟨key, vector, draw, rfl, hins⟩ := hw.apply hs
    intro hb
    have := insert_keys_length ha.1 hins
    exact (ih (by omega)).insert hr.reachable.inv hM0 ha.1 hins hb

/-- In an insert-only run no list ever names an absent node. -/
theorem closed_of_insert_run (h : ReachableBy env cfg Write.IsInsert idx) : idx.vectors.Closed := by
  induction h with
  | create => exact nofun
  | step w hw _ ha hs ih =>
    obtain ⟨key, vector, draw, rfl, hins⟩ := hw.apply hs
    rcases insert_cases hins with ⟨-, rfl⟩ | ⟨dim, -, -, ⟨-, rfl⟩ | ⟨-, curr, m, c, -, hl, rfl⟩⟩
    · exact ih
    · exact ih.insertOrAssign_newNode ha.1 vector _
    · exact (ih.insertOrAssign_newNode ha.1 vector _).linkLayers hl

theorem closed_of_insert_run_two :
    ∃ idx, ReachableBy Env.sample (Config.default .euclidean) Write.IsInsert idx ∧
      idx.vectors.nodes.length = 2 ∧ idx.vectors.Closed := by
  have r : ReachableBy Env.sample (Config.default .euclidean) Write.IsInsert _ :=
    .step (.insert 2 [Double.one] 0) trivial
      (.step (.insert 1 [Double.one] 0) trivial (.create (by decide)) ⟨by decide, by decide, by decide⟩ rfl)
      ⟨by decide, by decide, by decide⟩ rfl
  exact ⟨_, r, rfl, closed_of_insert_run r⟩

end Runs

/-- Inserts alone, with `M0 ≥ 1`, keep layer 0 connected while the index holds at most `M0 + 1`
nodes: from every node, the lists at layer 0 lead to every node. -/
theorem connected_of_insert_run {env : Env} {cfg : Config} (hM0 : 1 ≤ cfg.M0) {idx : HNSWIndex}
    (h : ReachableBy env cfg Write.IsInsert idx) (hn : idx.vectors.nodes.length ≤ cfg.M0 + 1) :
    idx.vectors.Connected 0 :=
  (GraphInv.of_run hM0 h (by simpa [NodeMap.keys] using hn)).connected

theorem connected_of_insert_run_two :
    ∃ idx, ReachableBy Env.sample (Config.default .euclidean) Write.IsInsert idx ∧
      idx.vectors.nodes.length = 2 ∧ idx.vectors.Connected 0 := by
  have r : ReachableBy Env.sample (Config.default .euclidean) Write.IsInsert _ :=
    .step (.insert 2 [Double.one] 0) trivial
      (.step (.insert 1 [Double.one] 0) trivial (.create (by decide)) ⟨by decide, by decide, by decide⟩ rfl)
      ⟨by decide, by decide, by decide⟩ rfl
  exact ⟨_, r, rfl, connected_of_insert_run (by decide) r (by decide)⟩

/-- Three inserts of one vector into an index with `M = M0 = ef_construction = 1`: the third node
is linked to the first, whose list then holds two nodes; the prune keeps the second and cuts the
third both ways, which is left with no link at layer 0. -/
theorem insert_run_disconnects :
    ∃ idx, ReachableBy Env.sample { Config.default .euclidean with M := 1, M0 := 1, efConstruction := 1 }
      Write.IsInsert idx ∧ idx.vectors.nodes.length = 3 ∧ idx.vectors.conns 3 0 = [] ∧
      ¬ idx.vectors.Connected 0 := by
  have r : ReachableBy Env.sample { Config.default .euclidean with M := 1, M0 := 1, efConstruction := 1 }
      Write.IsInsert _ :=
    .step (.insert 3 [Double.one] 0) trivial
      (.step (.insert 2 [Double.one] 0) trivial
        (.step (.insert 1 [Double.one] 0) trivial (.create (by decide)) ⟨by decide, by decide, by decide⟩ rfl)
        ⟨by decide, by decide, by decide⟩ rfl)
      ⟨by decide, by decide, by decide⟩ rfl
  exact ⟨_, r, rfl, rfl, fun hc => NodeMap.not_reach_of_nil (by rfl) (by decide) (hc 3 (by decide) 1 (by decide))⟩

/-! ## Inserting an indexed key again -/

/-- `insertOrAssign` replaces a node under a key the map holds and adds no key. -/
theorem NodeMap.keys_insertOrAssign_of_mem {m : NodeMap} {n : Node} (h : n.objKey ∈ m.keys) :
    (m.insertOrAssign n).keys = m.keys := by
  have h' : n.objKey ∈ m.nodes.map (·.objKey) := h
  unfold NodeMap.insertOrAssign
  rw [dif_pos h']
  simp only [NodeMap.keys, List.map_map]
  exact List.map_congr_left fun x _ => by simp only [Function.comp]; split <;> simp_all

/-- A duplicate-free list whose every element is `k` holds `k` at most once. -/
theorem length_le_one_of_forall_eq {l : List Int} {k : Int} (hl : l.Nodup) (h : ∀ y ∈ l, y = k) :
    l.length ≤ 1 :=
  (hl.subperm fun y hy => List.mem_singleton.2 (h y hy)).length_le

/-- Inserting again the only key `k` of an index, with a draw of layer 0, links `k` to itself: the
layer-0 search from the entry finds only `k`, `select_neighbors_simple` picks it, and
`connect_nodes(k, k, 0)` puts `k` in its own list, which no prune then cuts. -/
theorem insert_indexed_self_loop {env : Env} {idx : HNSWIndex} {n : Node} {vector : List Double}
    {draw : Nat} (hd : idx.DimOk) (hnodes : idx.vectors.nodes = [n])
    (hep : idx.entryPoint = some n.objKey) (hM : 1 ≤ idx.config.M0)
    (hq : vector.length = idx.config.vectorDimension) (hdraw : selectLayer draw = 0) :
    ∃ idx', insert env n.objKey vector draw idx = .ok idx' ∧ idx'.vectors.keys = [n.objKey] ∧
      n.objKey ∈ idx'.vectors.conns n.objKey 0 ∧ ¬ idx'.vectors.Simple 0 := by
  have hkeys : idx.vectors.keys = [n.objKey] := by simp [NodeMap.keys, hnodes]
  have hk : n.objKey ∈ idx.vectors.keys := by simp [hkeys]
  obtain ⟨idx', h⟩ : ∃ idx', insert env n.objKey vector draw idx = .ok idx' :=
    insert_ok hd (validateVectorDimension_eq_ok.2 ⟨rfl, .inr hq⟩) draw
  rcases insert_cases h with ⟨rfl, -⟩ | ⟨dim, -, -, ⟨h0, -⟩ | ⟨-, curr, m, c, hdesc, hlink, rfl⟩⟩
  · exact absurd (hd.2 (by simp [hnodes])) (by simp at hq; omega)
  · simp [hnodes] at h0
  -- the descent ends on `k`, and layer 0 is searched in the map with `k`'s node replaced
  set m' := idx.vectors.insertOrAssign (newNode n.objKey vector (selectLayer draw))
  have hkeys' : m'.keys = [n.objKey] :=
    (NodeMap.keys_insertOrAssign_of_mem (n := newNode n.objKey vector _) hk).trans hkeys
  have hk' : n.objKey ∈ m'.keys := by simp [hkeys']
  obtain ⟨x, rfl, hx⟩ := descend_mem ⟨_, hep, hk⟩ hdesc
  rw [hkeys, List.mem_singleton] at hx
  rw [hx, hdraw, linkLayers] at hlink
  obtain ⟨⟨m1, c1⟩, hl, h0⟩ := bind_eq_ok hlink
  cases h0
  obtain ⟨candidates, nbs, hs, hc, -, hp, -⟩ := linkLayer_cases hl
  rw [chooseNeighbors, if_pos rfl] at hc
  cases hc
  -- the search finds `k`, the only key, and the selection keeps it
  obtain ⟨hsk, hsne⟩ := searchLayerWithDistances_spec hs
  have hnbs : ∀ y ∈ selectNeighborsSimple candidates (idx.config.maxConn 0), y = n.objKey :=
    fun y hy => by
      obtain ⟨p, hp, rfl⟩ := selectNeighborsSimple_mem hy
      simpa [hkeys'] using (hsk p hp).1
  have hknb : n.objKey ∈ selectNeighborsSimple candidates (idx.config.maxConn 0) := by
    have hne : selectNeighborsSimple candidates (idx.config.maxConn 0) ≠ [] := by
      simp [selectNeighborsSimple, Config.maxConn, hsne hk']; omega
    obtain ⟨y, hy⟩ := List.exists_mem_of_ne_nil _ hne
    exact hnbs y hy ▸ hy
  -- linking puts `k` in its own list, of length one, so the prune leaves it
  have hsub : ∀ y ∈ selectNeighborsSimple candidates (idx.config.maxConn 0), y ∈ m'.keys :=
    fun y hy => hnbs y hy ▸ hk'
  have hloop : n.objKey ∈ (List.foldl (fun m nb => m.connectNodes n.objKey nb 0) m'
      (selectNeighborsSimple candidates (idx.config.maxConn 0))).conns n.objKey 0 :=
    (mem_connectAll_conns hk' hsub).2 (.inr ⟨rfl, .inl ⟨rfl, hknb⟩⟩)
  have hown : m'.conns n.objKey 0 = [] := by
    simp [m', NodeMap.conns, hdraw, newNode]
  have hnd0 : (m'.conns n.objKey 0).Nodup := hown ▸ List.nodup_nil
  have hlen : (((selectNeighborsSimple candidates (idx.config.maxConn 0)).foldl
      (fun m nb => m.connectNodes n.objKey nb 0) m').conns n.objKey 0).length ≤ idx.config.M0 :=
    (length_le_one_of_forall_eq (nodup_connectAll_conns hnd0) fun y hy => by
      rcases (mem_connectAll_conns hk' hsub).1 hy with hy | ⟨-, ⟨-, hy⟩ | ⟨-, rfl⟩⟩
      · simp [hown] at hy
      · exact hnbs y hy
      · rfl).trans hM
  rw [pruneAll_of_le fun nb hnb => by rw [hnbs nb hnb]; exact hlen] at hp
  cases hp
  refine ⟨_, h, by simpa [connectAll_keys] using hkeys', hloop, fun hs => (hs n.objKey).1 hloop⟩

theorem insert_indexed_self_loop_one :
    ∃ idx, Reachable Env.sample (Config.default .euclidean) idx ∧ ∃ idx',
      insert Env.sample 1 [Double.one] 0 idx = .ok idx' ∧ idx'.vectors.keys = [1] ∧
        1 ∈ idx'.vectors.conns 1 0 ∧ ¬ idx'.vectors.Simple 0 := by
  have hr : Reachable Env.sample (Config.default .euclidean)
      (saveToStorage (-1) ⟨{ Config.default .euclidean with vectorDimension := 1 }, .refs [],
        NodeMap.empty.insertOrAssign (newNode 1 [Double.one] 0), some 1, 0⟩) :=
    .step (.insert 1 [Double.one] 0) (.create (by decide)) ⟨by decide, by decide, by decide⟩ rfl
  exact ⟨_, hr, insert_indexed_self_loop (n := newNode 1 [Double.one] 0) hr.inv.dim rfl rfl
    (by decide) rfl rfl⟩

end RealmHnsw
